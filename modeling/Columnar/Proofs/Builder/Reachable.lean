import Columnar.Proofs.Builder.Fill

/-!
# Builders that can be reached

A builder starts as a reservation, and changes are made to it one after the other. Some of them
break off, and the next one meets what they have left behind. A copy that breaks off leaves the
builder as it was, and a fill may have made some of its rows. Either way **what is left holds
rows**, and so does every builder that can be reached.
-/

namespace Columnar

namespace Builder

variable {b : Builder} {rows : List Row}

/-! ## Copies -/

open Attempt

theorem mismatch_allOrNothing (b : Builder) (found : DataType) :
    (b.mismatch found).AllOrNothing b := allOrNothing_failed b _

theorem clash_allOrNothing (b : Builder) (c : Column) (len : Nat) :
    (if c.isUntyped ∧ len = 0 then done b else b.mismatch c.type).AllOrNothing b := by
  split
  · exact allOrNothing_done b b
  · exact mismatch_allOrNothing b c.type

/-- A list row is added after its elements, so if they are not copied nothing is. -/
theorem list_allOrNothing {before after : ListBuilder} {child : Builder} :
    ∀ {a : Attempt Builder}, a.AllOrNothing child →
      AllOrNothing (list before child)
        (match a with
          | ⟨child, none⟩ => .done (list after child)
          | ⟨child, some f⟩ => .failed (list before child) f) := by
  rintro ⟨s, failure⟩ h
  cases failure with
  | none => exact allOrNothing_done _ _
  | some f =>
    obtain rfl : s = child := h (by simp)
    exact allOrNothing_failed _ _

/-- **A copy that breaks off leaves the builder as it was**, its child included. -/
theorem copy_allOrNothing (b : Builder) (c : Column) (offset len : Nat) :
    (b.copy c offset len).AllOrNothing b := by
  induction b generalizing c offset len with
  | fixed t b =>
    cases c with
    | fixed u c =>
      unfold copy
      split
      · exact allOrNothing_of _ _
      · exact mismatch_allOrNothing _ _
    | _ => exact clash_allOrNothing _ _ _
  | boolean b =>
    cases c with
    | boolean c => exact allOrNothing_done _ _
    | _ => exact clash_allOrNothing _ _ _
  | text t b =>
    cases c with
    | text u c =>
      unfold copy
      split
      · exact allOrNothing_of _ _
      · exact mismatch_allOrNothing _ _
    | _ => exact clash_allOrNothing _ _ _
  | list b child ih =>
    cases c with
    | list source elements =>
      unfold copy
      split
      · exact allOrNothing_done _ _
      cases source.offsets.extent offset len with
      | error f => exact allOrNothing_failed _ _
      | ok range =>
        obtain ⟨start, stop⟩ := range
        -- The room is checked before anything is changed, and the row is added after the elements,
        -- so only the child can break off in between.
        cases hroom : b.checkRoom (stop - start).toNat with
        | error e =>
          simp only [hroom]
          exact allOrNothing_failed _ _
        | ok _ =>
          simp only [hroom]
          exact list_allOrNothing (ih elements start.toNat (stop - start).toNat)
    | _ => exact clash_allOrNothing _ _ _

theorem addList_allOrNothing (rows : ListBuilder) (child : Builder) (elements : Column)
    (start n : Nat) (valid : Bool) :
    (addList rows child elements start n valid).AllOrNothing (list rows child) := by
  rw [addList]
  cases rows.checkRoom n with
  | error e => exact allOrNothing_failed _ _
  | ok _ => exact list_allOrNothing (copy_allOrNothing child elements start n)

theorem addColumn_allOrNothing (b : Builder) (c : Column) : (b.addColumn c).AllOrNothing b := by
  cases b with
  | list rows child => exact addList_allOrNothing rows child c 0 c.length true
  | _ => exact mismatch_allOrNothing _ _

theorem copyRow_allOrNothing (b : Builder) (c : Column) (i : Nat) :
    (b.copyRow c i).AllOrNothing b := by
  cases b with
  | fixed t b =>
    cases c with
    | fixed u c =>
      rw [copyRow]
      split
      · exact allOrNothing_of _ _
      · exact mismatch_allOrNothing _ _
    | _ => exact mismatch_allOrNothing _ _
  | boolean b =>
    cases c with
    | boolean c => exact allOrNothing_of _ _
    | _ => exact mismatch_allOrNothing _ _
  | text t b =>
    cases c with
    | text u c =>
      rw [copyRow]
      split
      · exact allOrNothing_of _ _
      · exact mismatch_allOrNothing _ _
    | _ => exact mismatch_allOrNothing _ _
  | list b child =>
    cases c with
    | list source elements =>
      rw [copyRow]
      split
      · exact addList_allOrNothing _ _ _ _ _ _
      · exact allOrNothing_failed _ _
      · exact allOrNothing_failed _ _
    | _ => exact mismatch_allOrNothing _ _

/-! ## Windows that run past their column -/

theorem clash_state (b : Builder) (c : Column) (len : Nat) :
    (if c.isUntyped ∧ len = 0 then done b else b.mismatch c.type).state = b := by
  split <;> rfl

/-- Only bits are read past the end of their column. Every other copy of a window that runs past it
leaves the builder as it was. -/
theorem copy_past_end {c : Column} (hc : c.WellFormed) {offset len : Nat}
    (hr : c.length < offset + len) :
    (b.copy c offset len).state = b ∨ ∃ x y, b = boolean x ∧ c = .boolean y := by
  cases b with
  | fixed t b =>
    left
    cases c with
    | fixed u c =>
      by_cases hu : u = t
      · subst hu
        simp only [copy, dif_pos, b.copy_past_end hr]
        rfl
      · simp only [copy, dif_neg hu]
        rfl
    | _ => exact clash_state _ _ _
  | boolean b =>
    cases c with
    | boolean c => exact .inr ⟨b, c, rfl, rfl⟩
    | _ => exact .inl (clash_state _ _ _)
  | text t b =>
    left
    cases c with
    | text u c =>
      by_cases hu : u = t
      · subst hu
        rcases b.copy_past_end hc.1 hr with h | ⟨f, h⟩ <;>
        · simp only [copy, dif_pos, h]
          rfl
      · simp only [copy, dif_neg hu]
        rfl
    | _ => exact clash_state _ _ _
  | list b child =>
    left
    cases c with
    | list source elements =>
      unfold copy
      by_cases hlen : len = 0
      · rw [if_pos hlen]
        rfl
      · obtain ⟨f, hextent⟩ := hc.1.extent_past_end hr
        rw [if_neg hlen]
        simp only [hextent]
        rfl
    | _ => exact clash_state _ _ _

theorem copyRow_past_end {c : Column} (hc : c.WellFormed) {i : Nat} (hi : c.length ≤ i) :
    (b.copyRow c i).state = b := by
  cases b with
  | fixed t b =>
    cases c with
    | fixed u c =>
      by_cases hu : u = t
      · subst hu
        simp only [copyRow, dif_pos, b.copyRow_past_end hi]
        rfl
      · simp only [copyRow, dif_neg hu]
        rfl
    | _ => rfl
  | boolean b =>
    cases c with
    | boolean c =>
      simp only [copyRow, b.copyRow_past_end hi]
      rfl
    | _ => rfl
  | text t b =>
    cases c with
    | text u c =>
      by_cases hu : u = t
      · subst hu
        obtain ⟨f, h⟩ := b.copyRow_past_end hc.1 hi
        simp only [copyRow, dif_pos, h]
        rfl
      · simp only [copyRow, dif_neg hu]
        rfl
    | _ => rfl
  | list b child =>
    cases c with
    | list source elements =>
      obtain ⟨f, hextent⟩ := hc.1.extent_past_end
        (show source.offsets.rows < i + 1 from Nat.lt_succ_of_le hi)
      have hplace : source.offsets.place i = .error f := by
        rw [Offsets.place, Offsets.range, hextent]
        rfl
      rw [copyRow]
      simp only [hplace]
      rfl
    | _ => rfl

/-! ## What changes leave behind -/

/-- The builder's buffers are those of some rows. -/
def Sound (b : Builder) : Prop := ∃ rows, b.Holds rows

theorem Sound.of_adds {new : List Row} {misfit : Option Rejection} {a : Attempt Builder}
    (hb : b.Holds rows) (h : b.Adds rows new misfit a) (hall : a.AllOrNothing b) :
    a.state.Sound := by
  cases hf : a.failure with
  | none => exact ⟨_, (h.state hf).2.1⟩
  | some f =>
    rw [hall (by simp [hf])]
    exact ⟨rows, hb⟩

/-- A change that adds rows where there is memory for them, and is not made where there is none. -/
theorem Sound.of_affords {new : List Row} {n : Nat} {misfit : Option Rejection}
    {a : Attempt Builder} (hb : b.Holds rows)
    (h : b.type.Affords (rows.length + n) → b.Adds rows new misfit a) (hall : a.AllOrNothing b)
    (hno : ¬ b.type.Affords (rows.length + n) → a.state = b) : a.state.Sound := by
  by_cases hm : b.type.Affords (rows.length + n)
  · exact .of_adds hb (h hm) hall
  · rw [hno hm]
    exact ⟨rows, hb⟩

theorem Sound.copy (hb : b.Sound) {c : Column} (hc : c.WellFormed) (offset len : Nat) :
    (b.copy c offset len).state.Sound := by
  obtain ⟨rows, hb⟩ := hb
  -- A window past the end is refused, but for bits, which are read as zeros there.
  by_cases hr : offset + len ≤ c.length
  · exact .of_adds hb (copy_adds hb hc hr) (copy_allOrNothing b c offset len)
  · rcases copy_past_end (b := b) hc (Nat.lt_of_not_le hr) with hstate | ⟨x, y, rfl, rfl⟩
    · rw [hstate]
      exact ⟨rows, hb⟩
    · exact ⟨_, BooleanBuilder.Holds.copy hb y offset len⟩

theorem Sound.copyRow (hb : b.Sound) {c : Column} (hc : c.WellFormed) (i : Nat) :
    (b.copyRow c i).state.Sound := by
  obtain ⟨rows, hb⟩ := hb
  by_cases hi : i < c.length
  · exact .of_adds hb (copyRow_adds hb hc hi) (copyRow_allOrNothing b c i)
  · rw [copyRow_past_end hc (Nat.le_of_not_lt hi)]
    exact ⟨rows, hb⟩

theorem Sound.addColumn (hb : b.Sound) {elements : Column} (hc : elements.WellFormed) :
    (b.addColumn elements).state.Sound := by
  cases b with
  | list r child =>
    obtain ⟨rows, hb⟩ := hb
    exact .of_adds hb (addColumn_adds rfl hb hc) (addColumn_allOrNothing _ _)
  | _ => exact hb

theorem fillNull_allOrNothing (b : Builder) (n : Nat) : (b.fillNull n).AllOrNothing b :=
  allOrNothing_of _ _

theorem Sound.fillNull (hb : b.Sound) (n : Nat) : (b.fillNull n).state.Sound := by
  obtain ⟨rows, hb⟩ := hb
  refine .of_affords hb (fillNull_adds hb) (fillNull_allOrNothing b n) fun hm => ?_
  rw [fillNull_of_not_affords hb hm]
  rfl

theorem fill_allOrNothing {s : Scalar} (h : s.Bulk) (b : Builder) (n : Nat) :
    (b.fill s n).AllOrNothing b := by
  cases s with
  | null => exact fillNull_allOrNothing b n
  | fixed u v =>
    cases b with
    | fixed t b =>
      rw [fill]
      split
      · exact allOrNothing_of _ _
      · exact mismatch_allOrNothing _ _
    | _ => exact mismatch_allOrNothing _ _
  | boolean v =>
    cases b with
    | boolean b => exact allOrNothing_of _ _
    | _ => exact mismatch_allOrNothing _ _
  | text u v =>
    cases v with
    | some v => exact h.elim
    | none =>
      cases b with
      | text t b =>
        rw [fill]
        split
        · exact fun hne => congrArg (text t) (allOrNothing_of _ _ hne)
        · exact mismatch_allOrNothing _ _
      | _ => exact mismatch_allOrNothing _ _
  | list child v =>
    cases v with
    | some elements => exact h.elim
    | none =>
      cases b with
      | list r c => exact fillNull_allOrNothing _ n
      | _ => exact mismatch_allOrNothing _ _

theorem Sound.fill_of_bulk (hb : b.Sound) {s : Scalar} (hs : s.WellFormed)
    (hfits : (Value.scalar s).Fits b.type) (hbulk : s.Bulk) (n : Nat) :
    (b.fill s n).state.Sound := by
  obtain ⟨rows, hb⟩ := hb
  refine .of_affords hb (fun hm => fill_adds hb hs hfits fun _ => hm) (fill_allOrNothing hbulk b n)
    fun hm => ?_
  rw [fill_of_not_affords hb hfits hbulk hm]
  rfl

theorem Sound.fill (hb : b.Sound) {s : Scalar} (hs : s.WellFormed) (n : Nat) :
    (b.fill s n).state.Sound := by
  cases s with
  | null => exact hb.fillNull n
  | fixed u v =>
    cases b with
    | fixed t b =>
      by_cases hu : u = t
      · subst hu
        exact hb.fill_of_bulk hs (fun _ => rfl) trivial n
      · rw [Builder.fill, dif_neg hu]
        exact hb
    | _ => exact hb
  | boolean v =>
    cases b with
    | boolean b => exact hb.fill_of_bulk hs (fun _ => rfl) trivial n
    | _ => exact hb
  | text u v =>
    cases b with
    | text t b =>
      by_cases hu : u = t
      · subst hu
        cases v with
        | none => exact hb.fill_of_bulk hs (fun _ => rfl) trivial n
        | some v =>
          rw [Builder.fill, if_pos rfl]
          exact TextBuilder.exists_holds_fill hb _ n
      · rw [Builder.fill, if_neg hu]
        exact hb
    | _ => exact hb
  | list child v =>
    cases b with
    | list r c =>
      cases v with
      | none => exact hb.fillNull n
      | some elements =>
        rw [Builder.fill, fillList]
        -- Some of the copies may have been made, and each of them leaves a builder that holds rows.
        cases r.checkRoom (mulSat elements.length n) with
        | error e => exact hb
        | ok _ => exact state_iterate (P := Sound) (fun s hs' => hs'.addColumn hs) n hb
    | _ => exact hb

/-! ## Changes -/

/-- A change of a builder, with its arguments. -/
inductive Change
  | copy (c : Column) (offset len : Nat)
  | copyRow (c : Column) (i : Nat)
  | fill (s : Scalar) (n : Nat)
  | fillNull (n : Nat)
  | take (value : Value) (start len : Nat)
  | takeRow (value : Value) (i : Nat)

namespace Change

/-- The columns among the arguments are well-formed. Windows may run past them. -/
def WellFormed : Change → Prop
  | copy c _ _ | copyRow c _ => c.WellFormed
  | fill s _ => s.WellFormed
  | fillNull _ => True
  | take value _ _ | takeRow value _ => value.WellFormed

instance : DecidablePred WellFormed
  | copy c _ _ | copyRow c _ => inferInstanceAs (Decidable c.WellFormed)
  | fill s _ => inferInstanceAs (Decidable s.WellFormed)
  | fillNull _ => .isTrue trivial
  | take value _ _ | takeRow value _ => inferInstanceAs (Decidable value.WellFormed)

/-- Make the change. -/
def make (change : Change) (b : Builder) : Attempt Builder :=
  match change with
  | copy c offset len => b.copy c offset len
  | copyRow c i => b.copyRow c i
  | fill s n => b.fill s n
  | fillNull n => b.fillNull n
  | take value start len => b.take value start len
  | takeRow value i => b.takeRow value i

/-- **A change leaves a builder that holds rows**, whether it goes through or not. -/
theorem sound {change : Change} (h : change.WellFormed) (hb : b.Sound) :
    (change.make b).state.Sound := by
  cases change with
  | copy c offset len => exact hb.copy h offset len
  | copyRow c i => exact hb.copyRow h i
  | fill s n => exact hb.fill h n
  | fillNull n => exact hb.fillNull n
  | take value start len =>
    cases value with
    | column v => exact hb.copy h _ len
    | scalar s => exact hb.fill h len
  | takeRow value i =>
    cases value with
    | column v => exact hb.copyRow h _
    | scalar s => exact hb.fill h 1

end Change

/-- The builder is what changes, one after the other, have left of a reserved one. -/
inductive Reachable : Builder → Prop
  | reserve {type : DataType} {rows hint : Nat} {b : Builder} :
      (Builder.reserve type rows hint).outcome = .ok b → Reachable b
  | change {b : Builder} (change : Change) :
      change.WellFormed → Reachable b → Reachable (change.make b).state

/-- What changes, one after the other, leave of a builder. -/
def after (b : Builder) : List Change → Builder
  | [] => b
  | change :: rest => (change.make b).state.after rest

theorem Reachable.after (h : b.Reachable) (changes : List Change)
    (hchanges : ∀ change ∈ changes, change.WellFormed) : (b.after changes).Reachable := by
  induction changes generalizing b with
  | nil => exact h
  | cons change rest ih =>
    exact ih (.change change (hchanges change (.head _)) h) fun next hnext =>
      hchanges next (.tail _ hnext)

/-- **Every builder that can be reached holds rows.** -/
theorem Reachable.sound (h : b.Reachable) : b.Sound := by
  induction h with
  | @reserve type rows hint b hb =>
    exact ⟨[], (reserve_eq_ok hb).2.1⟩
  | change change hchange _ ih => exact change.sound hchange ih

end Builder

/-! ## Changes that suit a builder

A change **suits** a type if all that it supplies are rows of the type: its columns have the type
and its windows lie in them, and its scalars have the type throughout or are the untyped null. Such
a change adds its rows, unless there is no room or no memory for them.

Some rows are made in bulk, in memory for as many rows as there would be. A change **exhausts** a
builder if that is more than there is, and then it ends in a fault before it has looked at anything
else.
-/

/-- Rows of the value are made in bulk. Those of a column are copied. -/
def Value.Bulk : Value → Prop
  | .column _ => False
  | .scalar s => s.Bulk

namespace Builder

namespace Change

/-- The rows that the change is to add to a builder of the type. -/
def rows (type : DataType) : Change → List Row
  | copy c offset len => c.rowsFrom offset len
  | copyRow c i => [c.row i]
  | fill s n => List.replicate n (s.row type)
  | fillNull n => List.replicate n (.blank type)
  | take value start len => (List.range len).map fun j => value.row type (start + j)
  | takeRow value i => [value.row type i]

theorem rows_take_scalar (type : DataType) (s : Scalar) (start len : Nat) :
    (take (.scalar s) start len).rows type = List.replicate len (s.row type) :=
  map_range_const _ len

/-- The change supplies rows of the type, and its windows lie within their columns. -/
def Suits (type : DataType) : Change → Prop
  | copy c offset len => c.type = type ∧ offset + len ≤ c.length
  | copyRow c i => c.type = type ∧ i < c.length
  | fill s _ => (Value.scalar s).Fits type ∧ s.Agrees
  | fillNull _ => True
  | take value start len =>
    value.Fits type ∧ value.Agrees ∧ ∀ n, value.length? = some n → start + len ≤ n
  | takeRow value i => value.Fits type ∧ value.Agrees ∧ ∀ n, value.length? = some n → i < n

/-- The change makes rows in bulk, and there is no memory for as many as there would be. -/
def Exhausts (b : Builder) : Change → Prop
  | copy .. | copyRow .. => False
  | fill s n => s.Bulk ∧ ¬ b.type.Affords (b.length + n)
  | fillNull n => ¬ b.type.Affords (b.length + n)
  | take value _ len => value.Bulk ∧ ¬ b.type.Affords (b.length + len)
  | takeRow value _ => value.Bulk ∧ ¬ b.type.Affords (b.length + 1)

end Change

variable {b : Builder} {rows : List Row}

theorem fill_adds_of_agrees {s : Scalar} (hb : b.Holds rows) (hs : s.WellFormed)
    (hfits : (Value.scalar s).Fits b.type) (hagrees : s.Agrees) {n : Nat}
    (hm : ¬ (s.Bulk ∧ ¬ b.type.Affords (b.length + n))) :
    b.Adds rows (List.replicate n (s.row b.type)) none (b.fill s n) := by
  have hadd := fill_adds hb hs hfits (n := n) fun hbulk =>
    hb.length_eq ▸ Classical.not_not.1 fun hno => hm ⟨hbulk, hno⟩
  rwa [Value.misfit_of_agrees b.concrete_type hfits hagrees, ite_self] at hadd

variable {change : Change}

/-- **A suitable change adds its rows**, if it does not exhaust the builder. -/
theorem Change.make_adds (hb : b.Holds rows) (hw : change.WellFormed) (hs : change.Suits b.type)
    (hm : ¬ change.Exhausts b) : b.Adds rows (change.rows b.type) none (change.make b) := by
  -- A column of the type has no misfit, so what a copy of it adds is never in doubt.
  have hfits : ∀ c : Column, c.type = b.type → ∀ offset len,
      c.misfit b.type offset len = none := fun c hc =>
    Column.misfit_eq_none b.concrete_type hc
  cases change with
  | copy c offset len =>
    have hadd := copy_adds hb hw hs.2
    rwa [hfits c hs.1] at hadd
  | copyRow c i =>
    have hadd := copyRow_adds hb hw hs.2
    rwa [hfits c hs.1] at hadd
  | fill s n => exact fill_adds_of_agrees hb hw hs.1 hs.2 hm
  | fillNull n => exact fillNull_adds hb (hb.length_eq ▸ Classical.not_not.1 hm)
  | take value start len =>
    obtain ⟨hfit, hagrees, hlen⟩ := hs
    cases value with
    | column v =>
      have hbounds := v.in_bounds
      have hin := hlen v.len rfl
      have hadd := copy_adds hb hw (show v.offset + start + len ≤ v.column.length by omega)
      rw [hfits v.column (hfit rfl)] at hadd
      rwa [v.rowsFrom_eq] at hadd
    | scalar s =>
      rw [rows_take_scalar]
      exact fill_adds_of_agrees hb hw hfit hagrees hm
  | takeRow value i =>
    obtain ⟨hfit, hagrees, hlen⟩ := hs
    cases value with
    | column v =>
      have hbounds := v.in_bounds
      have hin := hlen v.len rfl
      have hadd := copyRow_adds hb hw (show v.offset + i < v.column.length by omega)
      rwa [hfits v.column (hfit rfl)] at hadd
    | scalar s => exact fill_adds_of_agrees hb hw hfit hagrees hm

/-- **A suitable change that exhausts the builder is a fault**, and leaves it as it was. -/
theorem Change.make_of_exhausts (hb : b.Holds rows) (hs : change.Suits b.type)
    (hm : change.Exhausts b) : change.make b = .failed b (.fault .tooLarge) := by
  have hlen := hb.length_eq
  cases change with
  | copy c offset len => exact hm.elim
  | copyRow c i => exact hm.elim
  | fill s n => exact fill_of_not_affords hb hs.1 hm.1 (hlen ▸ hm.2)
  | fillNull n => exact fillNull_of_not_affords hb (hlen ▸ hm)
  | take value start len =>
    cases value with
    | column v => exact hm.1.elim
    | scalar s => exact fill_of_not_affords hb hs.1 hm.1 (hlen ▸ hm.2)
  | takeRow value i =>
    cases value with
    | column v => exact hm.1.elim
    | scalar s => exact fill_of_not_affords hb hs.1 hm.1 (hlen ▸ hm.2)

end Builder

end Columnar
