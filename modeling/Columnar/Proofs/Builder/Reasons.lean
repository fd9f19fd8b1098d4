import Columnar.Plan
import Columnar.Proofs.Builder.Fill

/-!
# Why builders break off

A builder reports three things: that there is no room or no memory, that rows are of another type
than its own, and, as a fault, that a promise about a column is broken. **It reports nothing else**,
whatever columns it is handed, well-formed or not. So what is wrong with the arguments of a call as
such is never heard of from a builder.
-/

namespace Columnar

namespace Failure

/-- A builder may end so: with a fault, for want of room or memory, or since rows are of another
type than its own. -/
def OfBuilder : Failure → Prop
  | fault _ => True
  | rejected e => e.IsAllocation ∨ ∃ expected found, e = .typeMismatch .builder expected found

/-- A computation fails as a builder may. -/
def Reported {α : Type} (x : Except Failure α) : Prop := ∀ f, x = .error f → f.OfBuilder

variable {α β : Type}

theorem reported_ok (a : α) : Reported (.ok a) := nofun

theorem reported_lift (x : Checked α) : Reported x.lift := by
  intro f hf
  cases x with
  | ok a => cases hf
  | error fault =>
    cases hf
    trivial

theorem reported_ofRejected {x : Except Rejection α} (h : ∀ e, x = .error e → e.IsAllocation) :
    Reported (ofRejected x) := by
  intro f hf
  cases x with
  | ok a => cases hf
  | error e =>
    cases hf
    exact .inl (h e rfl)

theorem Reported.bind {x : Except Failure α} {g : α → Except Failure β} (hx : Reported x)
    (hg : ∀ a, x = .ok a → Reported (g a)) : Reported (x >>= g) := by
  intro f hf
  cases x with
  | error e =>
    cases hf
    exact hx f rfl
  | ok a => exact hg a rfl f hf

theorem Reported.map {x : Except Failure α} (h : Reported x) (g : α → β) : Reported (x.map g) := by
  intro f hf
  cases x with
  | error e =>
    cases hf
    exact h f rfl
  | ok a => cases hf

end Failure

open Failure

/-! ## Attempts -/

namespace Attempt

variable {σ τ α : Type}

/-- The attempt goes through, or breaks off as a builder may. -/
def Reports (a : Attempt σ) : Prop := a.Ends (fun _ => True) OfBuilder

theorem reports_done (s : σ) : (done s).Reports := trivial

theorem reports_of (s : σ) {x : Except Failure σ} (h : Reported x) : (of s x).Reports := by
  cases x with
  | ok t => trivial
  | error f => exact ends_failed (h f rfl)

theorem Reports.andThen {a : Attempt σ} {g : σ → Attempt σ} (h : a.Reports)
    (hg : ∀ s, (g s).Reports) : (a.andThen g).Reports :=
  Ends.andThen h fun s _ => hg s

theorem reports_iterate {f : σ → Attempt σ} (h : ∀ s, (f s).Reports) (n : Nat) (s : σ) :
    (iterate f n s).Reports := by
  induction n generalizing s with
  | zero => exact reports_done s
  | succ n ih => exact (h s).andThen ih

theorem reports_forEach {f : σ → α → Attempt σ} (h : ∀ s a, (f s a).Reports) (as : List α) (s : σ) :
    (forEach f as s).Reports := by
  induction as generalizing s with
  | nil => exact reports_done s
  | cons a rest ih => exact (h s a).andThen ih

theorem Reports.toExcept {a : Attempt σ} (h : a.Reports) : Reported a.toExcept := by
  intro f hf
  rcases Ends.toExcept h with ⟨s, hs, -⟩ | ⟨g, hg, hreports⟩
  · cases hs.symm.trans hf
  · cases hg.symm.trans hf
    exact hreports

end Attempt

open Attempt

/-! ## Text and lists -/

namespace TextBuilder

variable {t : TextType} (b : TextBuilder t)

theorem reported_add (text : Bytes) (valid : Bool) : Reported (b.add text valid) :=
  (reported_ofRejected fun _ he => (checkRoom_eq_error he).1).bind fun _ _ =>
    (reported_lift _).bind fun _ _ => reported_ok _

theorem reported_copy (c : TextColumn t) (offset len : Nat) : Reported (b.copy c offset len) := by
  rw [copy]
  split
  · exact reported_ok b
  · exact (reported_lift _).bind fun _ _ =>
      (reported_ofRejected fun _ he => (checkRoom_eq_error he).1).bind fun _ _ =>
        (reported_lift _).bind fun _ _ => (reported_lift _).bind fun _ _ => reported_ok _

theorem reported_copyRow (c : TextColumn t) (i : Nat) : Reported (b.copyRow c i) :=
  (reported_lift _).bind fun _ _ => (reported_lift _).bind fun _ _ => b.reported_add _ _

theorem reports_fill (value : Option Bytes) (n : Nat) : (b.fill value n).Reports := by
  cases value with
  | none => exact reports_of b (reported_lift _)
  | some text =>
    rw [fill]
    split
    · rename_i e he
      exact ends_failed (.inl (checkRoom_eq_error he).1)
    · exact reports_iterate (fun b => reports_of b (b.reported_add text true)) n b

end TextBuilder

theorem ListBuilder.isAllocation_of_checkRoom (b : ListBuilder) {extra : Nat} {e : Rejection}
    (h : b.checkRoom extra = .error e) : e.IsAllocation := by
  rcases b.checkRoom_cases extra with ⟨e', he, halloc, -⟩ | ⟨hok, -⟩
  · cases he.symm.trans h
    exact halloc
  · cases hok.symm.trans h

/-! ## Builders -/

namespace Builder

theorem reports_mismatch (b : Builder) (found : DataType) : (b.mismatch found).Reports :=
  ends_failed (.inr ⟨_, _, rfl⟩)

/-- A list row is added after its elements, and fails only as they do. -/
theorem reports_list {before after : ListBuilder} :
    ∀ {a : Attempt Builder}, a.Reports →
      Attempt.Reports
        (match a with
          | ⟨child, none⟩ => .done (list after child)
          | ⟨child, some f⟩ => .failed (list before child) f) := by
  rintro ⟨s, _ | f⟩ h
  · exact reports_done _
  · exact ends_failed h

theorem reports_clash (b : Builder) (c : Column) (len : Nat) :
    (if c.isUntyped ∧ len = 0 then done b else b.mismatch c.type).Reports := by
  split
  · exact reports_done b
  · exact b.reports_mismatch c.type

/-- **A copy breaks off as builders may**, whatever the column. -/
theorem reports_copy (b : Builder) (c : Column) (offset len : Nat) :
    (b.copy c offset len).Reports := by
  induction b generalizing c offset len with
  | fixed t b =>
    cases c with
    | fixed u c =>
      rw [copy]
      split
      · exact reports_of _ ((reported_lift _).map _)
      · exact reports_mismatch _ _
    | _ => exact reports_clash _ _ len
  | boolean b =>
    cases c with
    | boolean c => exact reports_done _
    | _ => exact reports_clash _ _ len
  | text t b =>
    cases c with
    | text u c =>
      rw [copy]
      split
      · exact reports_of _ ((b.reported_copy _ _ _).map _)
      · exact reports_mismatch _ _
    | _ => exact reports_clash _ _ len
  | list rows child ih =>
    cases c with
    | list source elements =>
      rw [copy]
      split
      · exact reports_done _
      cases source.offsets.extent offset len with
      | error f => exact ends_failed trivial
      | ok stops =>
        dsimp only
        split
        -- Of its own, a list reports no more than that there is no room for the elements.
        · rename_i e he
          exact ends_failed (.inl (rows.isAllocation_of_checkRoom he))
        · exact reports_list (ih elements _ _)
    | _ => exact reports_clash _ _ len

theorem reports_addList (rows : ListBuilder) (child : Builder) (elements : Column) (start n : Nat)
    (valid : Bool) : (addList rows child elements start n valid).Reports := by
  rw [addList]
  split
  · rename_i e he
    exact ends_failed (.inl (rows.isAllocation_of_checkRoom he))
  · exact reports_list (child.reports_copy elements start n)

theorem reports_copyRow (b : Builder) (c : Column) (i : Nat) : (b.copyRow c i).Reports := by
  cases b with
  | fixed t b =>
    cases c with
    | fixed u c =>
      rw [copyRow]
      split
      · exact reports_of _ ((reported_lift _).map _)
      · exact reports_mismatch _ _
    | _ => exact reports_mismatch _ _
  | boolean b =>
    cases c with
    | boolean c => exact reports_of _ ((reported_lift _).map _)
    | _ => exact reports_mismatch _ _
  | text t b =>
    cases c with
    | text u c =>
      rw [copyRow]
      split
      · exact reports_of _ ((b.reported_copyRow _ _).map _)
      · exact reports_mismatch _ _
    | _ => exact reports_mismatch _ _
  | list rows child =>
    cases c with
    | list source elements =>
      rw [copyRow]
      split
      · exact reports_addList _ _ _ _ _ _
      · exact ends_failed trivial
      · exact ends_failed trivial
    | _ => exact reports_mismatch _ _

theorem reports_fillNull (b : Builder) (n : Nat) : (b.fillNull n).Reports :=
  reports_of b (reported_lift _)

theorem reports_addColumn (b : Builder) (elements : Column) : (b.addColumn elements).Reports := by
  cases b with
  | list rows child => exact reports_addList rows child elements 0 elements.length true
  | _ => exact reports_mismatch _ _

/-- **So does a fill**, whatever the scalar carries. -/
theorem reports_fill (b : Builder) (s : Scalar) (n : Nat) : (b.fill s n).Reports := by
  cases s with
  | null =>
    rw [fill]
    exact b.reports_fillNull n
  | fixed u v =>
    cases b with
    | fixed t b =>
      rw [fill]
      split
      · exact reports_of _ ((reported_lift _).map _)
      · exact reports_mismatch _ _
    | _ => exact reports_mismatch _ _
  | boolean v =>
    cases b with
    | boolean b => exact reports_of _ ((reported_lift _).map _)
    | _ => exact reports_mismatch _ _
  | text u v =>
    cases b with
    | text t b =>
      rw [fill]
      split
      · exact Ends.map (b.reports_fill _ n)
      · exact reports_mismatch _ _
    | _ => exact reports_mismatch _ _
  | list child v =>
    cases b with
    | list rows c =>
      cases v with
      | none => exact reports_fillNull _ n
      | some elements =>
        -- The room for one copy is checked up front, and each copy checks again for itself.
        rw [fill, fillList]
        split
        · rename_i e he
          exact ends_failed (.inl (rows.isAllocation_of_checkRoom he))
        · exact reports_iterate (fun b => b.reports_addColumn elements) n _
    | _ => exact reports_mismatch _ _

theorem reports_take (b : Builder) (value : Value) (start len : Nat) :
    (b.take value start len).Reports := by
  cases value with
  | column v => exact b.reports_copy v.column _ len
  | scalar s => exact b.reports_fill s len

theorem reports_takeRow (b : Builder) (value : Value) (i : Nat) : (b.takeRow value i).Reports := by
  cases value with
  | column v => exact b.reports_copyRow v.column _
  | scalar s => exact b.reports_fill s 1

theorem reported_reserve (type : DataType) (rows hint : Nat) :
    Reported (reserve type rows hint).outcome := by
  intro f hf
  rcases reserve_spec type rows hint with ⟨b, hb, -⟩ | ⟨g, hg, hcause⟩
  · cases hb.symm.trans hf
  · cases hg.symm.trans hf
    rcases hcause with halloc | ⟨-, rfl⟩
    · cases f with
      | fault _ => trivial
      | rejected e => exact .inl halloc
    · exact .inr ⟨_, _, rfl⟩

end Builder

/-! ## Plans -/

namespace Plan

theorem reports_addFrom (values : List Value) (b : Builder) (source : Option Nat) (nulls : Nat)
    {add : Value → Attempt Builder} (hadd : ∀ value, (add value).Reports) :
    (addFrom values b source nulls add).Reports := by
  cases source with
  | none => exact b.reports_fillNull nulls
  | some k =>
    rw [addFrom]
    cases values[k]? with
    | none => exact ends_failed trivial
    | some value => exact hadd value

theorem reports_add (plan : Plan) (len : Nat) (b : Builder) : (plan.add len b).Reports := by
  cases plan with
  | spans values ss =>
    exact reports_forEach
      (fun b s => reports_addFrom values b _ _ fun value => b.reports_take value _ _) ss b
  | rows values source =>
    refine reports_forEach (fun b i => ?_) (List.range len) b
    rw [addRow]
    cases source i with
    | error f => exact ends_failed trivial
    | ok k => exact reports_addFrom values b _ _ fun value => b.reports_takeRow value i

/-- **Carrying out a plan fails only as a builder may.** -/
theorem reported_run (plan : Plan) (type : DataType) (len : Nat) :
    Reported (plan.run type len).outcome := by
  rw [run, Logged.outcome_bind]
  refine (Builder.reported_reserve _ _ _).bind fun b _ => ?_
  rw [Logged.outcome_bind]
  exact (plan.reports_add len b).toExcept.bind fun b _ => reported_lift b.finish

end Plan

end Columnar
