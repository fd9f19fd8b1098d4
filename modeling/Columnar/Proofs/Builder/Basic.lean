import Columnar.Proofs.Builder.List
import Columnar.Proofs.Column.Offsets

/-!
# Builders hold rows

A builder of any type holds rows, and a list builder holds them over the rows of its child. Every
change of a builder either **adds** rows or breaks off for a reason that the rows themselves tell:
they do not fit, there is no room for them in the offsets, or there is more text in them than memory
for it.
-/

namespace Columnar

theorem Attempt.map_of {σ τ : Type} (g : σ → τ) (s : σ) (x : Except Failure σ) :
    Attempt.of (g s) (x.map g) = (Attempt.of s x).map g := by
  cases x <;> rfl

namespace Builder

/-- The builder's buffers, and its child's, are those of the rows. -/
def Holds : Builder → List Row → Prop
  | fixed _ b, rows => b.Holds rows
  | boolean b, rows => b.Holds rows
  | text _ b, rows => b.Holds rows
  | list b child, rows => ∃ elements, b.Holds rows elements ∧ child.Holds elements

theorem concrete_type (b : Builder) : b.type.Concrete := by
  induction b with
  | fixed | boolean | text => trivial
  | list b child ih => exact ih

theorem Holds.length_eq {b : Builder} {rows : List Row} (h : b.Holds rows) :
    b.length = rows.length := by
  cases b with
  | fixed t b => exact FixedBuilder.Holds.length_eq h
  | boolean b => exact BooleanBuilder.Holds.length_eq h
  | text t b => exact TextBuilder.Holds.length_eq h
  | list b child =>
    obtain ⟨elements, h, -⟩ := h
    exact h.length_eq

theorem Holds.textBytes_le {b : Builder} {rows : List Row} (h : b.Holds rows) :
    Row.textBytesOf rows ≤ addressableBytes := by
  induction b generalizing rows with
  | fixed t b =>
    obtain ⟨bits, -, -, rfl⟩ := h
    rw [Row.textBytesOf_zipWith_of_flat fun _ _ => by simp [Row.textBytes]]
    exact Nat.zero_le _
  | boolean b =>
    obtain ⟨bits, -, -, -, rfl⟩ := h
    rw [Row.textBytesOf_zipWith_of_flat fun _ _ => by simp [Row.textBytes]]
    exact Nat.zero_le _
  | text t b => exact TextBuilder.Holds.textBytes_le h
  | list b child ih =>
    obtain ⟨elements, hb, hchild⟩ := h
    rw [hb.textBytes_eq]
    exact ih hchild

theorem Holds.room {b : Builder} {rows : List Row} (h : b.Holds rows) : b.type.Room rows := by
  induction b generalizing rows with
  | fixed | boolean => trivial
  | text t b => exact TextBuilder.Holds.room h
  | list b child ih =>
    obtain ⟨elements, hb, hchild⟩ := h
    rw [type, DataType.Room, hb.elementsOf_eq]
    exact ⟨hb.length_le, ih hchild⟩

/-- **What a builder holds says all about it**, its type aside. -/
theorem Holds.unique {b b' : Builder} {rows : List Row} (htype : b.type = b'.type)
    (h : b.Holds rows) (h' : b'.Holds rows) : b = b' := by
  induction b generalizing b' rows with
  | fixed t b =>
    cases b' with
    | fixed u b' =>
      cases htype
      exact congrArg (fixed t) (FixedBuilder.Holds.unique h h')
    | _ => cases htype
  | boolean b =>
    cases b' with
    | boolean b' => exact congrArg boolean (BooleanBuilder.Holds.unique h h')
    | _ => cases htype
  | text t b =>
    cases b' with
    | text u b' =>
      cases htype
      exact congrArg (text t) (TextBuilder.Holds.unique h h')
    | _ => cases htype
  | list b child ih =>
    cases b' with
    | list b' child' =>
      obtain ⟨elements, hb, hchild⟩ := h
      obtain ⟨elements', hb', hchild'⟩ := h'
      -- The rows tell the elements, so the children hold the same ones.
      obtain ⟨rfl, rfl⟩ := hb.unique hb'
      rw [ih (DataType.list.inj htype) hchild hchild']
    | _ => cases htype

/-- **A builder finishes with the canonical column of its rows.** -/
theorem Holds.finish {b : Builder} {rows : List Row} (h : b.Holds rows) :
    ∃ c, b.finish = .ok c ∧ c.Canonical ∧ c.type = b.type ∧ c.rows = rows := by
  induction b generalizing rows with
  | fixed t b =>
    obtain ⟨c, hc, hcanonical, hrows⟩ := FixedBuilder.Holds.finish h
    exact ⟨.fixed t c, by simp [Builder.finish, hc, bind, Except.bind, pure, Except.pure],
      hcanonical, rfl, hrows⟩
  | boolean b =>
    obtain ⟨c, hc, hcanonical, hrows⟩ := BooleanBuilder.Holds.finish h
    exact ⟨.boolean c, by simp [Builder.finish, hc, bind, Except.bind, pure, Except.pure],
      hcanonical, rfl, hrows⟩
  | text t b =>
    obtain ⟨c, hc, hcanonical, hrows⟩ := TextBuilder.Holds.finish h
    exact ⟨.text t c, by simp [Builder.finish, hc, bind, Except.bind, pure, Except.pure],
      hcanonical, rfl, hrows⟩
  | list b child ih =>
    obtain ⟨elements, hb, hchild⟩ := h
    obtain ⟨c, hc, hcanonical, htype, hrows⟩ := ih hchild
    obtain ⟨hlists, hlist, hrows⟩ := hb.finish hcanonical hrows
    refine ⟨.list b.finish c, ?_, hlist, ?_, hrows⟩
    · simp [Builder.finish, hc, hlists, bind, Except.bind]
    · rw [Column.type, htype, type]

/-! ## Adding rows -/

/-- The change adds the rows `new` to the rows of the builder unless `misfit` says that they do not
fit, and breaks off for no other reasons than `Failure.Stops` has. -/
def Adds (b : Builder) (rows new : List Row) (misfit : Option Rejection) (a : Attempt Builder) :
    Prop :=
  a.Ends (fun s => s.type = b.type ∧ s.Holds (rows ++ new) ∧ misfit = none)
    (Failure.Stops b.type (rows ++ new) misfit)

variable {b : Builder} {rows new : List Row}

theorem adds_done {s : Builder} (htype : s.type = b.type) (h : s.Holds (rows ++ new)) :
    b.Adds rows new none (.done s) :=
  Attempt.ends_done ⟨htype, h, rfl⟩

theorem adds_mismatch (b : Builder) (rows new : List Row) (found : DataType) :
    b.Adds rows new (some (Column.misfit.clash b.type found)) (b.mismatch found) :=
  Attempt.ends_failed (.inr rfl)

theorem adds_map {σ : Type} {g : σ → Builder} {P : σ → Prop} {a : Attempt σ}
    (h : a.Ends P (Failure.Stops b.type (rows ++ new) none)) (htype : ∀ s, (g s).type = b.type)
    (hP : ∀ s, P s → (g s).Holds (rows ++ new)) : b.Adds rows new none (a.map g) :=
  Attempt.Ends.map (h.mono (fun s hs => ⟨htype s, hP s hs, rfl⟩) fun _ hf => hf)

/-- Elements that are added to the child are rows of the list. -/
theorem adds_list {child : Builder} {before after : ListBuilder} {elements more : List Row}
    {misfit : Option Rejection} (hafter : after.Holds (rows ++ new) (elements ++ more)) :
    ∀ {a : Attempt Builder}, child.Adds elements more misfit a →
      (list before child).Adds rows new misfit
        (match a with
          | ⟨child, none⟩ => .done (list after child)
          | ⟨child, some f⟩ => .failed (list before child) f) := by
  rintro ⟨s, failure⟩ h
  cases failure with
  | none =>
    obtain ⟨htype, hs, hfits⟩ : s.type = child.type ∧ s.Holds (elements ++ more) ∧ misfit = none :=
      h
    exact Attempt.ends_done ⟨by rw [type, type, htype], ⟨_, hafter, hs⟩, hfits⟩
  | some f =>
    have hf : f.Stops child.type (elements ++ more) misfit := h
    exact Attempt.ends_failed (hafter.stops_of_child hf)

/-! ## Copies -/

/-- A column of another storage adds nothing. -/
theorem adds_of_clash {c : Column} {len : Nat} {misfit : Option Rejection} {a : Attempt Builder}
    (hb : b.Holds rows) (offset : Nat)
    (ha : a = if c.isUntyped ∧ len = 0 then .done b else b.mismatch c.type)
    (hm : misfit = if c.isUntyped ∧ len = 0 then none
      else some (Column.misfit.clash b.type c.type)) :
    b.Adds rows (c.rowsFrom offset len) misfit a := by
  by_cases h : c.isUntyped ∧ len = 0
  · rw [ha, hm, if_pos h, if_pos h, h.2]
    exact adds_done rfl (by simpa [Column.rowsFrom] using hb)
  · rw [ha, hm, if_neg h, if_neg h]
    exact adds_mismatch b rows _ c.type

/-- Rows of a list column are copied after all their elements, which are one range of the child. -/
theorem copyList_adds {b : ListBuilder} {child : Builder} {source : ListRows} {elements : Column}
    (hb : (list b child).Holds rows) (hascend : source.offsets.Ascend elements.length)
    {offset len : Nat} (hr : offset + len ≤ source.length)
    (hcopy : ∀ {held : List Row} {start n : Nat}, child.Holds held → start + n ≤ elements.length →
      child.Adds held (elements.rowsFrom start n) (elements.misfit child.type start n)
        (child.copy elements start n)) :
    (list b child).Adds rows ((Column.list source elements).rowsFrom offset len)
      ((Column.list source elements).misfit (.list child.type) offset len)
      ((list b child).copy (.list source elements) offset len) := by
  obtain ⟨held, hb, hchild⟩ := hb
  unfold copy Column.misfit
  -- Nothing below the lists is looked at if there are none.
  by_cases hlen : len = 0
  · subst hlen
    simp only [if_pos]
    exact adds_done rfl ⟨held, by simpa [Column.rowsFrom] using hb, hchild⟩
  have hlimit := hascend.le_limit hr
  have hstart := hascend.start_add_payload hr
  simp only [if_neg hlen, hascend.extent_eq hr, hascend.toNat_sub hr]
  rcases b.checkRoom_cases (source.offsets.payload offset len) with
    ⟨e, hroom, halloc, hover⟩ | ⟨hroom, hfit⟩
  · have hnew := congrArg List.length
      (Column.elementsOf_rowsFrom_list (r := source) (c := elements) hascend hr)
    rw [Column.length_rowsFrom] at hnew
    rw [hroom]
    exact Attempt.ends_failed (hb.stops halloc hover (Nat.le_of_eq hnew.symm) _ _)
  · rw [hroom]
    exact adds_list (hb.copy hascend hr hfit) (hcopy hchild (by omega))

/-- **Copying rows of a well-formed column adds them.** -/
theorem copy_adds {c : Column} (hb : b.Holds rows) (hc : c.WellFormed) {offset len : Nat}
    (hr : offset + len ≤ c.length) :
    b.Adds rows (c.rowsFrom offset len) (c.misfit b.type offset len) (b.copy c offset len) := by
  -- By induction on the builder: only the columns of its own storage have rows for it, and the
  -- elements of lists go to its child.
  induction b generalizing rows c offset len with
  | fixed t b =>
    cases c with
    | fixed u c =>
      unfold copy Column.misfit
      by_cases hu : u = t
      · subst hu
        obtain ⟨b', hcopy, hb'⟩ := FixedBuilder.Holds.copy hb c hr
        simp only [type, dif_pos, if_pos, hcopy]
        exact adds_done rfl hb'
      · simp only [type, dif_neg hu, if_neg hu]
        exact adds_mismatch (fixed t b) _ _ _
    | _ => exact adds_of_clash hb _ rfl rfl
  | boolean b =>
    cases c with
    | boolean c => exact adds_done rfl (BooleanBuilder.Holds.copy hb c offset len)
    | _ => exact adds_of_clash hb _ rfl rfl
  | text t b =>
    cases c with
    | text u c =>
      unfold copy Column.misfit
      by_cases hu : u = t
      · subst hu
        simp only [type, dif_pos, if_pos, Attempt.map_of]
        exact adds_map (TextBuilder.Holds.copy hb hc.1 hr) (fun _ => rfl) fun _ hs => hs
      · simp only [type, dif_neg hu, if_neg hu]
        exact adds_mismatch (text t b) _ _ _
    | _ => exact adds_of_clash hb _ rfl rfl
  | list b child ih =>
    cases c with
    | list source elements =>
      exact copyList_adds hb hc.1 hr fun hchild hin => ih hchild hc.2.2 hin
    | _ => exact adds_of_clash hb _ rfl rfl

theorem addList_adds {b : ListBuilder} {child : Builder} {elements : Column}
    (hb : (list b child).Holds rows) (hc : elements.WellFormed) {start n : Nat}
    (hr : start + n ≤ elements.length) (valid : Bool) :
    (list b child).Adds rows [Row.list valid (elements.rowsFrom start n)]
      (elements.misfit child.type start n) (addList b child elements start n valid) := by
  obtain ⟨held, hb, hchild⟩ := hb
  rw [addList]
  have hlen := elements.length_rowsFrom start n
  rcases b.checkRoom_cases n with ⟨e, hroom, halloc, hover⟩ | ⟨hroom, hfit⟩
  · have hnew : n ≤ (Row.elementsOf [Row.list valid (elements.rowsFrom start n)]).length := by
      simp [Row.elementsOf, Row.elements]
    rw [hroom]
    exact Attempt.ends_failed (hb.stops halloc hover hnew _ _)
  · have hadd := hb.add (elements.rowsFrom start n) valid (by rwa [hlen])
    rw [hlen] at hadd
    rw [hroom]
    exact adds_list hadd (copy_adds hchild hc hr)

/-- One row of a list column is copied as a list of its elements. -/
theorem copyRowList_adds {b : ListBuilder} {child : Builder} {source : ListRows}
    {elements : Column} (hb : (list b child).Holds rows)
    (hc : (Column.list source elements).WellFormed) {i : Nat} (hi : i < source.length) :
    (list b child).Adds rows [(Column.list source elements).row i]
      ((Column.list source elements).misfit (.list child.type) i 1)
      ((list b child).copyRow (.list source elements) i) := by
  obtain ⟨hascend, hcovers, helements⟩ := hc
  have hrow : i + 1 ≤ source.offsets.rows := hi
  have hlimit := hascend.le_limit hrow
  have hstart := hascend.start_add_payload hrow
  have hin : (source.offsets.offsetAt i).toNat + source.offsets.payload i 1 ≤ elements.length := by
    omega
  have hpart : (Column.list source elements).row i = Row.list (source.validity.bit i)
      (elements.rowsFrom (source.offsets.offsetAt i).toNat (source.offsets.payload i 1)) := by
    rw [Column.rowsFrom_eq elements hin, Column.row]
    rfl
  rw [copyRow]
  simp only [hascend.place_eq hi, Validity.isNull_eq hcovers hi, Bool.not_not]
  rw [hpart]
  exact addList_adds hb helements hin _

/-- **Copying one row of a well-formed column adds it.** -/
theorem copyRow_adds {c : Column} (hb : b.Holds rows) (hc : c.WellFormed) {i : Nat}
    (hi : i < c.length) :
    b.Adds rows [c.row i] (c.misfit b.type i 1) (b.copyRow c i) := by
  -- A column of the null type has no row to copy. All others clash unless the storage is the same.
  cases b with
  | fixed t b =>
    cases c with
    | fixed u c =>
      unfold copyRow Column.misfit
      by_cases hu : u = t
      · subst hu
        obtain ⟨b', hcopy, hb'⟩ := FixedBuilder.Holds.copyRow hb hc hi
        simp only [type, dif_pos, if_pos, hcopy]
        exact adds_done rfl hb'
      · simp only [type, dif_neg hu, if_neg hu]
        exact adds_mismatch (fixed t b) _ _ _
    | null => exact absurd hi (Nat.not_lt_zero _)
    | _ => exact adds_mismatch _ _ _ _
  | boolean b =>
    cases c with
    | boolean c =>
      obtain ⟨b', hcopy, hb'⟩ := BooleanBuilder.Holds.copyRow hb hc hi
      rw [copyRow, hcopy]
      exact adds_done rfl hb'
    | null => exact absurd hi (Nat.not_lt_zero _)
    | _ => exact adds_mismatch _ _ _ _
  | text t b =>
    cases c with
    | text u c =>
      unfold copyRow Column.misfit
      by_cases hu : u = t
      · subst hu
        simp only [type, dif_pos, if_pos, Attempt.map_of]
        exact adds_map (TextBuilder.Holds.copyRow hb hc hi) (fun _ => rfl) fun _ hs => hs
      · simp only [type, dif_neg hu, if_neg hu]
        exact adds_mismatch (text t b) _ _ _
    | null => exact absurd hi (Nat.not_lt_zero _)
    | _ => exact adds_mismatch _ _ _ _
  | list b child =>
    cases c with
    | list source elements => exact copyRowList_adds hb hc hi
    | null => exact absurd hi (Nat.not_lt_zero _)
    | _ => exact adds_mismatch _ _ _ _

end Builder

/-! ## When a builder is extended

A change that adds rows goes through exactly if the rows fit the type, the offsets have room for
them, and there is memory for their text. All three are about the rows that there would be, so they
do not depend on how the rows are added. And since a builder is determined by what it holds, neither
does the builder that is left: **changes that add the same rows come to the same**.
-/

namespace Builder

/-- The change goes through exactly if the new rows fit and there is room and memory for all rows,
and then it has added the new rows to the builder. -/
structure Extends (b : Builder) (rows new : List Row) (fits : Prop) (a : Attempt Builder) :
    Prop where
  through : a.failure = none ↔ fits ∧ b.type.Room (rows ++ new) ∧
    Row.textBytesOf (rows ++ new) ≤ addressableBytes
  type : a.failure = none → a.state.type = b.type
  holds : a.failure = none → a.state.Holds (rows ++ new)

variable {b : Builder} {rows new : List Row} {a : Attempt Builder}

/-- A change that adds rows breaks off for no other reasons. -/
theorem Adds.extends {misfit : Option Rejection} (h : b.Adds rows new misfit a) :
    b.Extends rows new (misfit = none) a where
  through := by
    constructor
    · intro hnone
      obtain ⟨htype, hholds, hfits⟩ := h.state hnone
      exact ⟨hfits, htype ▸ hholds.room, hholds.textBytes_le⟩
    · rintro ⟨rfl, hroom, hmem⟩
      cases hf : a.failure with
      | none => rfl
      | some f =>
        rw [Adds, Attempt.Ends, hf] at h
        rcases h with ⟨-, hno⟩ | ⟨-, -, hover⟩
        · exact absurd hroom hno
        · omega
  type hnone := (h.state hnone).1
  holds hnone := (h.state hnone).2.1

/-- Without wide offsets, memory for text never is a reason. -/
theorem Adds.failure_eq_none {misfit : Option Rejection} (h : b.Adds rows new misfit a)
    (hwide : ¬ b.type.Wide) : a.failure = none ↔ misfit = none ∧ b.type.Room (rows ++ new) := by
  constructor
  · intro hnone
    obtain ⟨hfits, hroom, -⟩ := h.extends.through.1 hnone
    exact ⟨hfits, hroom⟩
  · rintro ⟨rfl, hroom⟩
    cases hf : a.failure with
    | none => rfl
    | some f =>
      rw [Adds, Attempt.Ends, hf] at h
      rcases h with ⟨-, hno⟩ | ⟨-, hyes, -⟩
      · exact absurd hroom hno
      · exact absurd hyes hwide

theorem Adds.rejected_iff (h : b.Adds rows new none a) (hwide : ¬ b.type.Wide) :
    (∃ e, a.failure = some (.rejected e) ∧ e.IsAllocation) ↔ ¬ b.type.Room (rows ++ new) := by
  constructor
  · rintro ⟨e, he, -⟩ hroom
    rw [(h.failure_eq_none hwide).2 ⟨rfl, hroom⟩] at he
    cases he
  · intro hroom
    cases hf : a.failure with
    | none => exact absurd (h.extends.through.1 hf).2.1 hroom
    | some f =>
      rw [Adds, Attempt.Ends, hf] at h
      rcases h with ⟨halloc, -⟩ | ⟨-, hyes, -⟩
      · cases f with
        | rejected e => exact ⟨e, rfl, halloc⟩
        | fault f => exact halloc.elim
      · exact absurd hyes hwide

theorem Extends.congr {fits fits' : Prop} (h : b.Extends rows new fits a) (hfits : fits ↔ fits') :
    b.Extends rows new fits' a where
  through := by rw [h.through, hfits]
  type := h.type
  holds := h.holds

theorem Extends.andThen {fits fits' : Prop} {more : List Row} {g : Builder → Attempt Builder}
    (h : b.Extends rows new fits a)
    (hg : ∀ s : Builder, s.type = b.type → s.Holds (rows ++ new) →
      s.Extends (rows ++ new) more fits' (g s)) :
    b.Extends rows (new ++ more) (fits ∧ fits') (a.andThen g) := by
  have hstep : a.failure = none → a.state.type = b.type ∧
      a.state.Extends (rows ++ new) more fits' (g a.state) := fun hnone =>
    ⟨h.type hnone, hg _ (h.type hnone) (h.holds hnone)⟩
  refine ⟨?_, ?_, ?_⟩
  · rw [Attempt.failure_andThen_eq_none, ← List.append_assoc]
    constructor
    · rintro ⟨hnone, hnone'⟩
      obtain ⟨htype, hstep⟩ := hstep hnone
      obtain ⟨hfits', hroom, hmem⟩ := hstep.through.1 hnone'
      exact ⟨⟨(h.through.1 hnone).1, hfits'⟩, htype ▸ hroom, hmem⟩
    · rintro ⟨⟨hfits, hfits'⟩, hroom, hmem⟩
      -- Where there is room and memory for all rows, there is for the first of them.
      have hmem' : Row.textBytesOf (rows ++ new) ≤ addressableBytes := by
        rw [Row.textBytesOf_append] at hmem
        omega
      have hnone := h.through.2 ⟨hfits, hroom.of_append, hmem'⟩
      obtain ⟨htype, hstep⟩ := hstep hnone
      exact ⟨hnone, hstep.through.2 ⟨hfits', htype.symm ▸ hroom, hmem⟩⟩
  · intro hnone
    obtain ⟨hnone, hnone'⟩ := Attempt.failure_andThen_eq_none.1 hnone
    obtain ⟨htype, hstep⟩ := hstep hnone
    rw [Attempt.state_andThen g hnone]
    exact (hstep.type hnone').trans htype
  · intro hnone
    obtain ⟨hnone, hnone'⟩ := Attempt.failure_andThen_eq_none.1 hnone
    rw [Attempt.state_andThen g hnone, ← List.append_assoc]
    exact (hstep hnone).2.holds hnone'

/-- **Changes that add the same rows come to the same.** -/
theorem Extends.result_eq {fits fits' : Prop} {a' : Attempt Builder}
    (h : b.Extends rows new fits a) (h' : b.Extends rows new fits' a') (hfits : fits ↔ fits') :
    a.result = a'.result := by
  have hiff : a.failure = none ↔ a'.failure = none := by rw [h.through, h'.through, hfits]
  cases hr : a'.result with
  | none => exact Attempt.result_eq_none.2 fun hnone => Attempt.result_eq_none.1 hr (hiff.1 hnone)
  | some s =>
    obtain ⟨hnone', rfl⟩ := Attempt.result_eq_some.1 hr
    have hnone := hiff.2 hnone'
    -- Both are left with the same rows, and a builder is determined by those.
    have htype : a.state.type = a'.state.type := (h.type hnone).trans (h'.type hnone').symm
    exact Attempt.result_eq_some.2
      ⟨hnone, (h.holds hnone).unique htype (h'.holds hnone')⟩

end Builder

/-! ## The number of rows of a builder

Only well-formed columns have rows that a builder can be said to hold. The **number** of rows is
kept whatever the column: a copy that goes through adds as many rows as were asked for, and a
builder finishes with as many as it counts. So a column of the wrong length is found by counting,
even if its buffers are no column's.
-/

theorem Checked.lift_eq_ok {α : Type} {x : Checked α} {a : α} : x.lift = .ok a ↔ x = .ok a := by
  cases x <;> simp [lift]

namespace FixedBuilder

variable {t : FixedType} {b b' : FixedBuilder t}

theorem length_of_copy {c : FixedColumn t} {offset len : Nat} (h : b.copy c offset len = .ok b') :
    b'.length = b.length + len := by
  obtain ⟨part, hpart, h⟩ := bind_eq_ok.1 h
  cases h
  rw [length, List.length_append, Offsets.length_of_bufferPart hpart, Nat.add_sub_cancel_left]
  rfl

end FixedBuilder

namespace TextBuilder

variable {t : TextType} {b b' : TextBuilder t}

theorem length_of_copy {c : TextColumn t} {offset len : Nat} (h : b.copy c offset len = .ok b') :
    b'.offsets.length = b.offsets.length + len := by
  rw [copy] at h
  split at h
  · rename_i hlen
    cases h
    rw [hlen, Nat.add_zero]
  · obtain ⟨stops, hextent, h⟩ := bind_eq_ok.1 h
    obtain ⟨-, -, h⟩ := bind_eq_ok.1 h
    obtain ⟨part, -, h⟩ := bind_eq_ok.1 h
    obtain ⟨-, -, h⟩ := bind_eq_ok.1 h
    cases h
    rw [List.length_append, Offsets.length_moved (Checked.lift_eq_ok.1 hextent)]

end TextBuilder

namespace Builder

/-- The buffers are those of `n` rows, whatever the rows are. -/
def Counts : Builder → Nat → Prop
  | fixed _ b, n => b.length = n
  | boolean b, n => b.length = n
  | text _ b, n => b.offsets.length = n + 1
  | list rows _, n => rows.offsets.length = n + 1

variable {b : Builder} {n : Nat}

theorem Counts.length_eq (h : b.Counts n) : b.length = n := by
  cases b with
  | fixed | boolean => exact h
  | text t b => exact Nat.sub_eq_of_eq_add h
  | list rows child => exact Nat.sub_eq_of_eq_add h

theorem Holds.counts {rows : List Row} (h : b.Holds rows) : b.Counts rows.length := by
  cases b with
  | fixed t b => exact FixedBuilder.Holds.length_eq h
  | boolean b => exact BooleanBuilder.Holds.length_eq h
  | text t b => exact TextBuilder.Holds.offsets_length h
  | list rows child =>
    obtain ⟨elements, h, -⟩ := h
    exact h.offsets_length

/-- From a column of another storage no rows are copied, whether they are asked for or not. -/
theorem counts_of_clash (h : b.Counts n) (c : Column) (len : Nat) :
    (if c.isUntyped ∧ len = 0 then .done b else b.mismatch c.type : Attempt Builder).Ends
      (·.Counts (n + len)) fun _ => True := by
  split
  · rename_i huntyped
    rw [huntyped.2]
    exact Attempt.ends_done h
  · exact Attempt.ends_failed trivial

/-- Rows of a list column are counted by the offsets that are moved for them, and not by whatever
the elements come to. -/
theorem Counts.copyList {rows : ListBuilder} {child : Builder} (h : (list rows child).Counts n)
    (source : ListRows) (elements : Column) (offset len : Nat) :
    ((list rows child).copy (.list source elements) offset len).Ends (·.Counts (n + len))
      fun _ => True := by
  rw [Builder.copy]
  split
  · rename_i hlen
    rw [hlen]
    exact Attempt.ends_done h
  cases hextent : source.offsets.extent offset len with
  | error f => exact Attempt.ends_failed trivial
  | ok stops =>
    dsimp only
    cases rows.checkRoom (stops.2 - stops.1).toNat with
    | error e => exact Attempt.ends_failed trivial
    | ok _ =>
      dsimp only
      -- However many elements the child takes, it is the offsets that count the rows.
      rcases child.copy elements stops.1.toNat (stops.2 - stops.1).toNat with ⟨child, _ | f⟩
      · refine Attempt.ends_done ?_
        rw [Counts, ListBuilder.copy, List.length_append, Offsets.length_moved hextent, h,
          Nat.add_right_comm]
      · exact Attempt.ends_failed trivial

/-- **A copy that goes through adds as many rows as were asked for**, whatever the column. -/
theorem Counts.copy (h : b.Counts n) (c : Column) (offset len : Nat) :
    (b.copy c offset len).Ends (·.Counts (n + len)) fun _ => True := by
  cases b with
  | fixed t b =>
    cases c with
    | fixed u c =>
      rw [Builder.copy]
      split
      · rw [Attempt.map_of]
        refine Attempt.Ends.map (Attempt.ends_of fun s hs => ?_)
        rw [Counts, FixedBuilder.length_of_copy (Checked.lift_eq_ok.1 hs), h]
      · exact Attempt.ends_failed trivial
    | _ => exact counts_of_clash h _ len
  | boolean b =>
    cases c with
    | boolean c =>
      refine Attempt.ends_done ?_
      rw [Counts, BooleanBuilder.length, BooleanBuilder.copy, Bitmask.len_append]
      exact congrArg (· + len) h
    | _ => exact counts_of_clash h _ len
  | text t b =>
    cases c with
    | text u c =>
      rw [Builder.copy]
      split
      · rw [Attempt.map_of]
        refine Attempt.Ends.map (Attempt.ends_of fun s hs => ?_)
        rw [Counts, TextBuilder.length_of_copy hs, h, Nat.add_right_comm]
      · exact Attempt.ends_failed trivial
    | _ => exact counts_of_clash h _ len
  | list rows child =>
    cases c with
    | list source elements => exact h.copyList source elements offset len
    | _ => exact counts_of_clash h _ len

/-- **A builder finishes with as many rows as it has.** -/
theorem length_of_finish {c : Column} (h : b.finish = .ok c) : c.length = b.length := by
  cases b with
  | fixed | boolean | text =>
    obtain ⟨c, hc, h⟩ := bind_eq_ok.1 h
    obtain ⟨-, -, hc⟩ := bind_eq_ok.1 hc
    cases hc
    cases h
    rfl
  | list rows child =>
    obtain ⟨elements, -, h⟩ := bind_eq_ok.1 h
    obtain ⟨-, -, h⟩ := bind_eq_ok.1 h
    obtain ⟨-, -, h⟩ := bind_eq_ok.1 h
    obtain ⟨-, -, h⟩ := bind_eq_ok.1 h
    cases h
    rfl

end Builder

end Columnar
