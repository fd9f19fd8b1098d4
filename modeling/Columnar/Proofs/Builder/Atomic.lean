import Columnar.Proofs.Builder.Basic
import Columnar.Proofs.Builder.Reachable

/-!
# Copies and fills, in parts and in full

Two questions about several rows at once: whether they come to the same as the rows one by one, and
what is left of them if they break off.
-/

namespace Columnar

/-! ## Copies in parts

Rows are copied several at once, from buffer to buffer and with one check for all of them, or one at
a time. The checks are made on different numbers, the offsets come from different sums, and a
mismatch may be hidden below lists that have no elements. It makes no difference: **however a window
is split, copying it comes to the same**, in every builder that can be reached.
-/

namespace Builder

/-- The number of rows in consecutive spans of the given lengths. -/
def spanned : List Nat → Nat
  | [] => 0
  | len :: rest => len + spanned rest

/-- Copy consecutive spans, of the given lengths, from `offset` on. -/
def copySpans (c : Column) : List Nat → Nat → Builder → Attempt Builder
  | [], _, b => .done b
  | len :: rest, offset, b => (b.copy c offset len).andThen (copySpans c rest (offset + len))

/-- Copy `len` rows from `offset` on, one after the other. -/
def copyRows (c : Column) (offset len : Nat) (b : Builder) : Attempt Builder :=
  Attempt.forEach (fun b i => b.copyRow c i) (List.range' offset len) b

variable {b : Builder} {rows : List Row} {c : Column} {offset : Nat}

theorem copyRows_succ (c : Column) (offset len : Nat) (b : Builder) :
    copyRows c offset (len + 1) b = (b.copyRow c offset).andThen (copyRows c (offset + 1) len) :=
  rfl

theorem Extends.copies {m n : Nat} {a : Attempt Builder} {g : Builder → Attempt Builder}
    (hc : c.WellFormed) (hr : offset + (m + n) ≤ c.length)
    (h : b.Extends rows (c.rowsFrom offset m) (c.misfit b.type offset m = none) a)
    (hg : ∀ s : Builder, s.Holds (rows ++ c.rowsFrom offset m) →
      s.Extends (rows ++ c.rowsFrom offset m) (c.rowsFrom (offset + m) n)
        (c.misfit s.type (offset + m) n = none) (g s)) :
    b.Extends rows (c.rowsFrom offset (m + n)) (c.misfit b.type offset (m + n) = none)
      (a.andThen g) := by
  rw [Column.rowsFrom_add]
  refine (h.andThen fun s htype hs => ?_).congr (Column.misfit_add hc hr).symm
  rw [← htype]
  exact hg s hs

/-- Spans that meet are copied as one span. -/
theorem copySpans_extends {lens : List Nat} (hb : b.Holds rows) (hc : c.WellFormed)
    (hne : lens ≠ []) (hr : offset + spanned lens ≤ c.length) :
    b.Extends rows (c.rowsFrom offset (spanned lens)) (c.misfit b.type offset (spanned lens) = none)
      (copySpans c lens offset b) := by
  induction lens generalizing b rows offset with
  | nil => exact absurd rfl hne
  | cons len rest ih =>
    rw [spanned] at hr ⊢
    have hfirst := (copy_adds hb hc (show offset + len ≤ c.length by omega)).extends
    cases rest with
    | nil =>
      have hlast : copySpans c [len] offset b = b.copy c offset len := Attempt.andThen_done _
      rwa [hlast]
    | cons next rest => exact hfirst.copies hc hr fun s hs => ih hs (by simp) (by omega)

/-- One row after the other, rows are copied as they are at once. -/
theorem copyRows_extends {len : Nat} (hb : b.Holds rows) (hc : c.WellFormed) (hlen : 0 < len)
    (hr : offset + len ≤ c.length) :
    b.Extends rows (c.rowsFrom offset len) (c.misfit b.type offset len = none)
      (copyRows c offset len b) := by
  induction len generalizing b rows offset with
  | zero => exact absurd hlen (Nat.lt_irrefl 0)
  | succ len ih =>
    have hfirst := (copyRow_adds hb hc (show offset < c.length by omega)).extends
    rw [← Column.rowsFrom_one] at hfirst
    rw [copyRows_succ, Nat.add_comm len 1]
    cases len with
    | zero =>
      have hlast : (b.copyRow c offset).andThen (copyRows c (offset + 1) 0) = b.copyRow c offset :=
        Attempt.andThen_done _
      rwa [hlast]
    | succ len =>
      have hrest : offset + 1 + (len + 1) ≤ c.length := by omega
      exact hfirst.copies hc (by omega) fun s hs => ih hs (Nat.succ_pos len) hrest

/-- **However a window is split, copying it comes to the same.** In every builder that can be
reached, rows of a well-formed column are copied at once exactly if they are copied one after the
other, and exactly if they are copied in consecutive spans, and then the builder that is left is the
same. It finishes with the column of the rows before, followed by the rows of the window with all
that they store, null or not. -/
theorem copy_eq_copyRows (hb : b.Reachable) (hc : c.WellFormed) {len : Nat} (hlen : 0 < len)
    (hr : offset + len ≤ c.length) :
    (copyRows c offset len b).result = (b.copy c offset len).result ∧
    (∀ lens : List Nat, spanned lens = len →
      (copySpans c lens offset b).result = (b.copy c offset len).result) ∧
    ∀ s, (b.copy c offset len).result = some s →
      s.length = b.length + len ∧
      ∃ before out, b.finish = .ok before ∧ s.finish = .ok out ∧ out.Canonical ∧
        out.type = before.type ∧ out.rows = before.rows ++ c.rowsFrom offset len := by
  obtain ⟨rows, hb⟩ := hb.sound
  have hcopy := (copy_adds hb hc hr).extends
  refine ⟨(copyRows_extends hb hc hlen hr).result_eq hcopy Iff.rfl, ?_, ?_⟩
  · rintro lens rfl
    have hne : lens ≠ [] := by
      rintro rfl
      exact absurd hlen (Nat.lt_irrefl 0)
    exact (copySpans_extends hb hc hne hr).result_eq hcopy Iff.rfl
  · intro s hs
    obtain ⟨hnone, rfl⟩ := Attempt.result_eq_some.1 hs
    have hholds := hcopy.holds hnone
    obtain ⟨before, hbefore, -, htype, hrows⟩ := hb.finish
    obtain ⟨out, hout, hcanonical, htype', hrows'⟩ := hholds.finish
    refine ⟨?_, before, out, hbefore, hout, hcanonical, ?_, ?_⟩
    · rw [hholds.length_eq, hb.length_eq, List.length_append, Column.length_rowsFrom]
    · rw [htype', hcopy.type hnone, htype]
    · rw [hrows', hrows]

/-- Behind a null, a list of one text and a null list that stores two, out of a column with a spare
element in front. -/
theorem copy_eq_copyRows_lists :
    ∃ b s : Builder, b.length = 1 ∧
      (copyRows (.list ⟨[1, 1, 2, 4], some (.ofList [true, true, false])⟩
        (.text .string ⟨[0, 1, 2, 3, 4], [98, 97, 99, 100], none⟩)) 1 2 b).result = some s ∧
      s.finish = .ok (.list ⟨[0, 0, 1, 3], some (.ofList [false, true, false])⟩
        (.text .string ⟨[0, 1, 2, 3], [97, 99, 100], none⟩)) := by
  have hb : (fillNull (.list .empty (.text .string (.empty .string))) 1).state.Reachable :=
    .change (.fillNull 1) trivial
      (.reserve (show (reserve (.list (.text .string)) 0 0).outcome = .ok _ from rfl))
  have hcopy := copy_eq_copyRows (c := .list ⟨[1, 1, 2, 4], some (.ofList [true, true, false])⟩
    (.text .string ⟨[0, 1, 2, 3, 4], [98, 97, 99, 100], none⟩)) hb (by decide)
    (show 0 < 2 by decide) (show 1 + 2 ≤ 3 by decide)
  exact ⟨_, _, by decide, hcopy.1.trans rfl, rfl⟩

end Builder

/-! ## What a change that breaks off leaves

**A copy is all or nothing.** Every check on a level comes before anything grows there, and the
child is the first to grow. So a copy that breaks off many levels down has changed nothing on the
way.

**A fill need not be.** It asks once for room for all the copies of a list and then makes them one
by one. But it asks on its own level only. Below, the offsets of a child list or of a text count
something else, and they may run out at a later copy, when there are rows already. So a fill that is
rejected leaves the builder as it was exactly unless it **overcommits**: all copies have room on its
own level, and one copy goes through.
-/

namespace Builder

variable {b : Builder} {rows : List Row}

/-! ### Copies -/

/-- The change goes through exactly if the new rows fit and there is room and memory for all rows.
Then it has added them, and otherwise it leaves the builder as it was. -/
structure Atomic (b : Builder) (rows new : List Row) (fits : Prop) (a : Attempt Builder) : Prop
    extends b.Extends rows new fits a where
  unchanged : a.AllOrNothing b

/-- **Copies are all or nothing.** In every builder that can be reached, copies of a window and of a
row of a well-formed column go through exactly if the rows fit the builder's type at every depth
that they reach and there is room and memory for them. Otherwise the builder is as it was, whether
the column is of another type or an offset would overflow, and on whatever level. -/
theorem copies_atomic (hb : b.Reachable) {c : Column} (hc : c.WellFormed) :
    ∃ held, b.finish = .ok held ∧
      (∀ offset len, offset + len ≤ c.length →
        b.Atomic held.rows (c.rowsFrom offset len) (c.misfit b.type offset len = none)
          (b.copy c offset len)) ∧
      ∀ i < c.length,
        b.Atomic held.rows [c.row i] (c.misfit b.type i 1 = none) (b.copyRow c i) := by
  obtain ⟨rows, hb⟩ := hb.sound
  obtain ⟨held, hfinish, -, -, rfl⟩ := hb.finish
  refine ⟨held, hfinish, fun offset len hr => ?_, fun i hi => ?_⟩
  · exact ⟨(copy_adds hb hc hr).extends, copy_allOrNothing b c offset len⟩
  · exact ⟨(copyRow_adds hb hc hi).extends, copyRow_allOrNothing b c i⟩

/-- Lists of lists of texts do not go into lists of lists of booleans. The one with an element is
found out below both lists, and the builder keeps the one row that it has. -/
theorem copies_atomic_misfit_below :
    ∃ (b : Builder) (c : Column), b.length = 1 ∧
      c = .list ⟨[0, 0, 1], none⟩ (.list ⟨[0, 1], none⟩ (.text .string ⟨[0, 1], [97], none⟩)) ∧
      (b.copy c 0 2).failure =
        some (.rejected (Column.misfit.clash .boolean (.text .string))) ∧
      (b.copy c 0 2).state = b ∧ (b.copyRow c 1).state = b := by
  have hreserve : (reserve (.list (.list .boolean)) 0 0).outcome =
      .ok (list .empty (list .empty (boolean .empty))) := rfl
  have hreach := (Reachable.reserve hreserve).after [.fillNull 1] (by decide)
  obtain ⟨held, -, hcopy, hrow⟩ := copies_atomic hreach (c := .list ⟨[0, 0, 1], none⟩
    (.list ⟨[0, 1], none⟩ (.text .string ⟨[0, 1], [97], none⟩))) (by decide)
  have hcopy := hcopy 0 2 (by decide)
  have hrow := hrow 1 (by decide)
  refine ⟨_, _, by decide, rfl, rfl, hcopy.unchanged fun hnone => ?_,
    hrow.unchanged fun hnone => ?_⟩
  · exact absurd (hcopy.through.1 hnone).1 (by decide)
  · exact absurd (hrow.through.1 hnone).1 (by decide)

/-! ### Fills -/

/-- The list's own offsets have room for all the copies, and one copy goes through. -/
def Overcommits : Builder → Scalar → Nat → Prop
  | list r child, .list _ (some elements), n =>
    child.length + elements.length * n ≤ Offsets.greatest listOffsetWidth ∧
      ((list r child).addColumn elements).failure = none
  | _, _, _ => False

theorem Holds.toNat_last {r : ListBuilder} {child : Builder} (hb : (list r child).Holds rows) :
    r.offsets.last.toNat = child.length := by
  obtain ⟨held, hr, hchild⟩ := hb
  rw [hr.toNat_last, hchild.length_eq]

theorem fillList_eq_iterate {r : ListBuilder} {child : Builder} {elements : Column} {n : Nat}
    (hroom : r.offsets.last.toNat + elements.length * n ≤ Offsets.greatest listOffsetWidth) :
    fillList r child elements n =
      Attempt.iterate (fun s => s.addColumn elements) n (list r child) := by
  rw [fillList, ListBuilder.checkRoom_mulSat_eq_ok.2 hroom]

theorem fillList_eq_iterate_of_le {r : ListBuilder} {child : Builder} {elements : Column}
    {m n : Nat} (hle : m ≤ n)
    (hroom : r.offsets.last.toNat + elements.length * n ≤ Offsets.greatest listOffsetWidth) :
    fillList r child elements m =
      Attempt.iterate (fun s => s.addColumn elements) m (list r child) := by
  have := Nat.mul_le_mul_left elements.length hle
  exact fillList_eq_iterate (by omega)

/-- **Copies of a list that are refused leave the builder as it was, or some of them.** -/
theorem fillList_unchanged_iff {r : ListBuilder} {child : Builder} {elements : Column} {n : Nat}
    {ct : DataType} {e : Rejection} (hb : (list r child).Holds rows)
    (he : (fillList r child elements n).failure = some (.rejected e)) :
    ((fillList r child elements n).state = list r child ↔
        ¬ (list r child).Overcommits (.list ct (some elements)) n) ∧
      ((list r child).Overcommits (.list ct (some elements)) n → ∃ m, 0 < m ∧ m < n ∧
        (fillList r child elements m).result = some (fillList r child elements n).state) := by
  have hlast := hb.toNat_last
  by_cases hroom : r.offsets.last.toNat + elements.length * n ≤ Offsets.greatest listOffsetWidth
  · have hover : (list r child).Overcommits (.list ct (some elements)) n ↔
        ((list r child).addColumn elements).failure = none :=
      ⟨fun h => h.2, fun h => ⟨hlast ▸ hroom, h⟩⟩
    rw [fillList_eq_iterate hroom] at he ⊢
    have hfail : (Attempt.iterate (fun s => s.addColumn elements) n (list r child)).failure ≠
        none := by simp [he]
    have hrounds := Attempt.iterate_unchanged_iff (fun s => addColumn_allOrNothing s elements) hfail
    -- There is room for fewer copies too, so making `m` of them is the first `m` rounds.
    refine ⟨hrounds.1.trans (not_congr hover.symm), fun h => ?_⟩
    obtain ⟨m, hpos, hlt, hmade⟩ := hrounds.2 (hover.1 h)
    refine ⟨m, hpos, hlt, ?_⟩
    rw [fillList_eq_iterate_of_le (Nat.le_of_lt hlt) hroom, hmade]
    rfl
  · have hstate : (fillList r child elements n).state = list r child := by
      rw [fillList]
      cases hcheck : r.checkRoom (mulSat elements.length n) with
      | error e => rfl
      | ok u => exact absurd (ListBuilder.checkRoom_mulSat_eq_ok.1 hcheck) hroom
    have hno : ¬ (list r child).Overcommits (.list ct (some elements)) n :=
      fun h => hroom (hlast ▸ h.1)
    exact ⟨⟨fun _ => hno, fun _ => hstate⟩, fun h => absurd h hno⟩

/-- **A fill that asks on its own level only leaves the copies that have room.** If all copies of a
list have room in the offsets of the builder but not below them, then the fill is rejected. It
leaves as many copies as there is room for. -/
theorem fillList_leaves_copies {r : ListBuilder} {child : Builder} {elements : Column} {n : Nat}
    (hb : (list r child).Holds rows) (hc : elements.WellFormed)
    (htype : elements.type = child.type) (hwide : ¬ child.type.Wide)
    (hown : child.length + elements.length * n ≤ Offsets.greatest listOffsetWidth)
    (hall : ¬ (list r child).type.Room (rows ++ List.replicate n (Row.list true elements.rows))) :
    ∃ e m, (fillList r child elements n).failure = some (.rejected e) ∧ e.IsAllocation ∧ m < n ∧
      (fillList r child elements n).state.Holds
        (rows ++ List.replicate m (Row.list true elements.rows)) ∧
      (list r child).type.Room (rows ++ List.replicate m (Row.list true elements.rows)) ∧
      ¬ (list r child).type.Room
        (rows ++ List.replicate (m + 1) (Row.list true elements.rows)) := by
  have hfits := Column.misfit_eq_none child.concrete_type htype 0 elements.length
  have hmade (k : Nat) : (list r child).Adds rows
      (List.replicate k (Row.list true elements.rows)) none (fillList r child elements k) := by
    have hadds := fillList_adds hb hc k
    rwa [hfits, ite_self] at hadds
  obtain ⟨e, he, halloc⟩ := ((hmade n).rejected_iff hwide).2 hall
  have hlast := hb.toNat_last
  have hroom : r.offsets.last.toNat + elements.length * n ≤ Offsets.greatest listOffsetWidth :=
    hlast ▸ hown
  obtain ⟨m, -, hrounds, hend⟩ := Attempt.iterate_cases
    (fun s : Builder => addColumn_allOrNothing s elements) n (list r child)
  rw [← fillList_eq_iterate hroom] at hrounds hend
  rcases hend with ⟨hnone, -⟩ | ⟨-, hlt, hround⟩
  · rw [hnone] at he
    cases he
  -- What is left is what `m` copies come to, and one more copy breaks off on that.
  rw [← fillList_eq_iterate_of_le (Nat.le_of_lt hlt) hroom] at hrounds
  have hleft := (hmade m).extends
  rw [hrounds] at hleft
  have hholds := hleft.holds rfl
  have hstype : (fillList r child elements n).state.type = .list child.type := hleft.type rfl
  have hnext := addColumn_adds hstype hholds hc
  rw [hfits] at hnext
  have hsome : (fillList r child elements n).state.type.Room
      (rows ++ List.replicate m (Row.list true elements.rows)) := hholds.room
  rw [hstype] at hsome
  refine ⟨e, m, he, halloc, hlt, hholds, hsome, fun hmore => ?_⟩
  rw [List.replicate_succ', ← List.append_assoc] at hmore
  have hnone := (hnext.failure_eq_none (hstype ▸ hwide)).2 ⟨rfl, by rwa [hstype]⟩
  rw [hnone, he] at hround
  cases hround

/-- A fill with no list is rejected before any copy is made. -/
theorem state_fill_of_rejected {s : Scalar} {n : Nat} {e : Rejection} (hb : b.Holds rows)
    (hflat : ∀ child elements, s ≠ .list child (some elements))
    (he : (b.fill s n).failure = some (.rejected e)) : (b.fill s n).state = b := by
  by_cases hbulk : s.Bulk
  · exact fill_allOrNothing hbulk b n (by simp [he])
  cases s with
  | text u v =>
    cases v with
    | none => exact absurd trivial hbulk
    | some v =>
      cases b with
      | text t b =>
        by_cases hu : u = t
        · rw [fill, if_pos hu] at he ⊢
          exact congrArg (text t) (TextBuilder.state_fill_of_rejected hb he)
        · rw [fill, if_neg hu]
          rfl
      | _ => rfl
  | list child v =>
    cases v with
    | none => exact absurd trivial hbulk
    | some elements => exact absurd rfl (hflat child elements)
  | _ => exact absurd trivial hbulk

/-- **A fill that is refused leaves the builder as it was, unless its list overcommits.** -/
theorem fill_unchanged_iff (hb : b.Reachable) {s : Scalar} {n : Nat} {e : Rejection}
    (he : (b.fill s n).failure = some (.rejected e)) :
    ((b.fill s n).state = b ↔ ¬ b.Overcommits s n) ∧
      (b.Overcommits s n →
        ∃ m, 0 < m ∧ m < n ∧ (b.fill s m).result = some (b.fill s n).state) := by
  obtain ⟨rows, hb⟩ := hb.sound
  have hflat : (∀ child elements, s ≠ .list child (some elements)) → ¬ b.Overcommits s n →
      ((b.fill s n).state = b ↔ ¬ b.Overcommits s n) ∧ (b.Overcommits s n →
        ∃ m, 0 < m ∧ m < n ∧ (b.fill s m).result = some (b.fill s n).state) := fun hs hno =>
    ⟨⟨fun _ => hno, fun _ => state_fill_of_rejected hb hs he⟩, fun h => absurd h hno⟩
  cases s with
  | list ct v =>
    cases v with
    | none => exact hflat (by simp) (by simp [Overcommits])
    | some elements =>
      cases b with
      | list r child => exact fillList_unchanged_iff hb he
      | _ => exact ⟨⟨fun _ => id, fun _ => rfl⟩, False.elim⟩
  | _ => exact hflat (by simp) (by simp [Overcommits])

/-- More copies of a list than its own offsets count are refused at once. -/
theorem fill_unchanged_past_offsets :
    ∃ (b : Builder) (s : Scalar) (e : Rejection), (reserve (.list .boolean) 0 0).outcome = .ok b ∧
      s = .list .boolean (some (.boolean ⟨.ofList [true], none⟩)) ∧
      (b.fill s 0x100000000).failure = some (.rejected e) ∧ (b.fill s 0x100000000).state = b := by
  have hreserve : (reserve (.list .boolean) 0 0).outcome =
      .ok (list .empty (boolean .empty)) := rfl
  rcases ListBuilder.empty.checkRoom_cases (mulSat 1 0x100000000) with
    ⟨e, hroom, -, -⟩ | ⟨-, hle⟩
  · have hlength : (Column.boolean ⟨.ofList [true], none⟩).length = 1 := by decide
    have hfill : ((list .empty (boolean .empty)).fill
        (.list .boolean (some (.boolean ⟨.ofList [true], none⟩))) 0x100000000).failure =
          some (.rejected e) := by
      rw [fill, fillList, hlength, hroom]
      rfl
    refine ⟨_, _, e, hreserve, rfl, hfill, (fill_unchanged_iff (.reserve hreserve) hfill).1.2 ?_⟩
    rintro ⟨hover, -⟩
    exact absurd hover (by decide)
  · exact absurd hle (by decide)

/-- Where a column of one list has room for `n` copies among the elements of that list but not for
one more, all copies but the last are left of a fill of an empty builder. -/
theorem fillList_leaves_all_but_last {elements : Column} {n size : Nat} (hc : elements.WellFormed)
    (htype : elements.type = .list .boolean) (hlen : elements.length = 1)
    (hsize : (Row.elementsOf elements.rows).length = size)
    (hsome : n * size ≤ Offsets.greatest listOffsetWidth)
    (hmore : Offsets.greatest listOffsetWidth < (n + 1) * size)
    (hown : n + 1 ≤ Offsets.greatest listOffsetWidth) :
    ∃ e left, (fillList .empty (list .empty (boolean .empty)) elements (n + 1)).failure =
        some (.rejected e) ∧ e.IsAllocation ∧
      (fillList .empty (list .empty (boolean .empty)) elements (n + 1)).state.length = n ∧
      (fillList .empty (list .empty (boolean .empty)) elements (n + 1)).state.finish = .ok left ∧
      left.length = n := by
  have hb : (list .empty (list .empty (boolean .empty))).Holds [] :=
    ⟨[], ListBuilder.holds_empty, [], ListBuilder.holds_empty, BooleanBuilder.holds_empty⟩
  have hroom (k : Nat) (hk : k ≤ n + 1) :
      (DataType.list (.list .boolean)).Room (List.replicate k (Row.list true elements.rows)) ↔
        k * size ≤ Offsets.greatest listOffsetWidth := by
    simp only [DataType.Room, Row.length_elementsOf_replicate,
      Row.length_elementsOf_elementsOf_replicate, Row.elements, Column.length_rows, hlen, hsize,
      and_true, and_iff_right_iff_imp]
    omega
  obtain ⟨e, m, hfailure, halloc, hlt, hholds, hroom', hno⟩ :=
    fillList_leaves_copies (n := n + 1) hb hc htype id
      (by rw [hlen, Nat.one_mul]; exact (Nat.zero_add _).symm ▸ hown)
      (fun hall => absurd ((hroom _ (Nat.le_refl _)).1 hall) (Nat.not_le_of_lt hmore))
  -- The number of copies that are left is the greatest that has room.
  have hle : n ≤ m := by
    refine Nat.le_of_not_lt fun hmn => hno ((hroom _ (by omega)).2 ?_)
    exact Nat.le_trans (Nat.mul_le_mul_right size hmn) hsome
  obtain rfl : m = n := by omega
  obtain ⟨left, hleft, -, -, hrows⟩ := hholds.finish
  have hlength := congrArg List.length hrows
  rw [Column.length_rows] at hlength
  exact ⟨e, left, hfailure, halloc, by simpa using hholds.length_eq, hleft, by simpa using hlength⟩

/-- A list that holds one list of `0x10000` booleans has room in the outer offsets that often. But
the inner offsets count booleans, and cannot count the last of them. So a fill that is rejected
leaves all copies but one in a builder that was empty. -/
theorem fill_leaves_copies :
    ∃ (b : Builder) (s : Scalar) (e : Rejection) (held left : Column),
      (reserve (.list (.list .boolean)) 0 0).outcome = .ok b ∧
      s = .list (.list .boolean)
        (some (.list ⟨[0, 0x10000], none⟩ (.boolean ⟨.filled 0x10000 false, none⟩))) ∧
      s.WellFormed ∧ (b.fill s 0x10000).failure = some (.rejected e) ∧ e.IsAllocation ∧
      b.length = 0 ∧ b.finish = .ok held ∧ held.length = 0 ∧
      (b.fill s 0x10000).state.length = 0xFFFF ∧
      (b.fill s 0x10000).state.finish = .ok left ∧ left.length = 0xFFFF := by
  have hreserve : (reserve (.list (.list .boolean)) 0 0).outcome =
      .ok (list .empty (list .empty (boolean .empty))) := rfl
  have hc : (Column.list ⟨[0, 0x10000], none⟩
      (.boolean ⟨.filled 0x10000 false, none⟩)).WellFormed := by decide
  have hsize : (Row.elementsOf (Column.list ⟨[0, 0x10000], none⟩
      (.boolean ⟨.filled 0x10000 false, none⟩)).rows).length = 0x10000 := by
    rw [Column.elementsOf_rows_list (by decide), Column.length_rows]
    rfl
  obtain ⟨e, left, hfailure, halloc, hlength, hfinish, hleft⟩ := fillList_leaves_all_but_last
    (n := 0xFFFF) hc rfl rfl hsize (by decide) (by decide) (by decide)
  exact ⟨_, _, e, _, left, hreserve, rfl, hc, hfailure, halloc, rfl, rfl, rfl, hlength, hfinish,
    hleft⟩

end Builder

end Columnar
