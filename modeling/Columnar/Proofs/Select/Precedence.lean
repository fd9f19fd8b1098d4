import Columnar.Proofs.Builder.Reasons
import Columnar.Proofs.Select.Checks
import Columnar.Proofs.Select.Operations

/-!
# Which check rejects a call

After the checks of the arguments come those of the indices, for `choose`. `Call.Misses` says what
they report. The **first failing check decides** how the call ends, on every path, and rejections of
these kinds have no other cause: plans and builders report none of them, be the columns well-formed
or not.

All checks but those of the indices read types and lengths alone. So calls on arguments of the same
**shape** are rejected alike, whatever rows the arguments hold.
-/

namespace Columnar

/-! ## Indices -/

namespace Choose

/-- The index at row `i` of an argument, as it is read, absent under a null. -/
def readIndex : Value → Nat → Checked (Option Int)
  | .scalar s, _ => .ok s.asIndex?
  | .column v, i => return (← v.scalarAt i).asIndex?

/-- What is read at a row names a choice, or is null. -/
def Hits (read : Nat → Checked (Option Int)) (choices row : Nat) : Prop :=
  ∃ found, read row = .ok found ∧ ∀ index, found = some index → 0 ≤ index ∧ index < choices

/-- What is read at a row names no choice. -/
def Misses (read : Nat → Checked (Option Int)) (choices row : Nat) (index : Int) : Prop :=
  read row = .ok (some index) ∧ ¬ (0 ≤ index ∧ index < choices)

variable {read : Nat → Checked (Option Int)} {choices row : Nat} {e : Rejection}

theorem hits_or_misses (read : Nat → Checked (Option Int)) (choices row : Nat) :
    Hits read choices row ∨ (∃ index, Misses read choices row index) ∨
      ∃ f, read row = .error f := by
  cases hread : read row with
  | error f => exact .inr (.inr ⟨f, rfl⟩)
  | ok found =>
    cases found with
    | none => exact .inl ⟨none, hread, nofun⟩
    | some index =>
      by_cases hin : 0 ≤ index ∧ index < choices
      · exact .inl ⟨some index, hread, fun other hother => Option.some.inj hother ▸ hin⟩
      · exact .inr (.inl ⟨index, hread, hin⟩)

theorem Misses.not_hits {index : Int} (h : Misses read choices row index) :
    ¬ Hits read choices row := by
  rintro ⟨found, hfound, hin⟩
  cases h.1.symm.trans hfound
  exact h.2 (hin index rfl)

/-- The first row of a range that misses, all rows of the range before it being hits. -/
def FirstMiss (read : Nat → Checked (Option Int)) (choices start stop : Nat) (e : Rejection) :
    Prop :=
  ∃ row index, start ≤ row ∧ row < stop ∧ Misses read choices row index ∧
    (∀ earlier, start ≤ earlier → earlier < row → Hits read choices earlier) ∧
    e = .indexOutOfBounds row index choices

theorem not_firstMiss_of_le {start stop : Nat} (h : stop ≤ start) :
    ¬ FirstMiss read choices start stop e := by
  rintro ⟨row, index, hstart, hstop, -⟩
  omega

/-- A range after a hit misses where the rest of it does. -/
theorem firstMiss_of_hits {start stop : Nat} (hhit : Hits read choices start) :
    FirstMiss read choices start stop e ↔ FirstMiss read choices (start + 1) stop e := by
  constructor
  · rintro ⟨row, index, hstart, hstop, hmiss, hbefore, he⟩
    have hne : row ≠ start := by
      rintro rfl
      exact hmiss.not_hits hhit
    exact ⟨row, index, by omega, hstop, hmiss, fun j hj => hbefore j (by omega), he⟩
  · rintro ⟨row, index, hstart, hstop, hmiss, hbefore, he⟩
    refine ⟨row, index, by omega, hstop, hmiss, ?_, he⟩
    intro j hj hlt
    rcases Nat.eq_or_lt_of_le hj with rfl | hj
    · exact hhit
    · exact hbefore j hj hlt

/-- A range that starts with a row that is no hit misses there or nowhere. -/
theorem firstMiss_of_not_hits {start stop : Nat} (hlt : start < stop)
    (hnot : ¬ Hits read choices start) : FirstMiss read choices start stop e ↔
      ∃ index, Misses read choices start index ∧ e = .indexOutOfBounds start index choices := by
  constructor
  · rintro ⟨row, index, hstart, -, hmiss, hbefore, he⟩
    rcases Nat.eq_or_lt_of_le hstart with rfl | hstart
    · exact ⟨index, hmiss, he⟩
    · exact absurd (hbefore start (Nat.le_refl _) hstart) hnot
  · rintro ⟨index, hmiss, he⟩
    exact ⟨start, index, Nat.le_refl _, hlt, hmiss, fun j hj hj' => absurd hj (by omega), he⟩

theorem firstMiss_of_misses {start stop : Nat} (hlt : start < stop) {index : Int}
    (hmiss : Misses read choices start index) :
    FirstMiss read choices start stop e ↔ e = .indexOutOfBounds start index choices := by
  rw [firstMiss_of_not_hits hlt hmiss.not_hits]
  constructor
  · rintro ⟨other, hother, rfl⟩
    cases hmiss.1.symm.trans hother.1
    rfl
  · exact fun he => ⟨index, hmiss, he⟩

/-- A row that cannot be read is neither a hit nor a miss. -/
theorem not_firstMiss_of_error {start stop : Nat} (hlt : start < stop) {f : Fault}
    (hf : read start = .error f) : ¬ FirstMiss read choices start stop e := by
  rw [firstMiss_of_not_hits hlt (by
    rintro ⟨found, hfound, -⟩
    cases hf.symm.trans hfound)]
  rintro ⟨index, hmiss, -⟩
  cases hf.symm.trans hmiss.1

variable {t : FixedType} {c : FixedColumn t}

/-- The index at row `i` of a column that is read from `offset` on. -/
def readSlot (c : FixedColumn t) (offset i : Nat) : Checked (Option Int) :=
  return (← c.get (offset + i)).bind t.toIndex?

theorem checkedSource_of_error {offset : Nat} {f : Fault} (h : readSlot c offset row = .error f) :
    checkedSource c offset choices row = .error (.fault f) := by
  rw [readSlot] at h
  rw [checkedSource]
  cases hget : c.get (offset + row) with
  | error g =>
    rw [hget] at h
    cases h
    rfl
  | ok slot? =>
    rw [hget] at h
    cases h

section Integer

variable (ht : t.isInteger)
include ht

theorem checkedSource_of_ok {offset : Nat} {found : Option Int}
    (h : readSlot c offset row = .ok found) :
    checkedSource c offset choices row =
      Failure.ofRejected (found.mapM (named choices row)) := by
  rw [readSlot] at h
  rw [checkedSource]
  cases hget : c.get (offset + row) with
  | error g =>
    rw [hget] at h
    cases h
  | ok slot? =>
    rw [hget] at h
    cases slot? with
    | none =>
      cases h
      rfl
    | some slot =>
      obtain ⟨index, hindex⟩ := exists_toIndex? ht slot
      rw [ok_bind, Option.bind_some, hindex] at h
      cases h
      simp only [Checked.lift, ok_bind, hindex, Option.getD_some, Option.mapM_some]
      cases named choices row index <;> rfl

/-- **The groups are rejected** because of the first row that misses. -/
theorem groups_eq_rejected (offset row len : Nat) :
    groups c offset choices row len = .error (.rejected e) ↔
      FirstMiss (readSlot c offset) choices row (row + len) e := by
  induction len generalizing row with
  | zero =>
    simp only [groups, reduceCtorEq, false_iff]
    exact not_firstMiss_of_le (Nat.le_refl _)
  | succ len ih =>
    have hlt : row < row + (len + 1) := by omega
    have hrest : groups c offset choices row (len + 1) =
        checkedSource c offset choices row >>= fun source =>
          groups c offset choices (row + 1) len >>= fun rest =>
            .ok (Segment.cons ⟨row, 1, source⟩ rest) := rfl
    rw [hrest]
    -- Only a hit lets the rest be looked at. A row that cannot be read ends in a fault.
    rcases hits_or_misses (readSlot c offset) choices row with
      ⟨found, hfound, hin⟩ | ⟨index, hmiss⟩ | ⟨f, hf⟩
    · have hsource : ∃ source, checkedSource c offset choices row = .ok source := by
        rw [checkedSource_of_ok ht hfound]
        cases found with
        | none => exact ⟨none, rfl⟩
        | some index =>
          rw [Option.mapM_some, named_eq, if_pos (hin index rfl)]
          exact ⟨some index.toNat, rfl⟩
      obtain ⟨source, hsource⟩ := hsource
      rw [hsource, ok_bind, firstMiss_of_hits ⟨found, hfound, hin⟩,
        show row + (len + 1) = row + 1 + len by omega, ← ih (row + 1)]
      cases groups c offset choices (row + 1) len <;> simp [bind, Except.bind]
    · rw [checkedSource_of_ok ht hmiss.1, Option.mapM_some, named_eq, if_neg hmiss.2,
        firstMiss_of_misses hlt hmiss]
      constructor
      · intro h
        cases h
        rfl
      · rintro rfl
        rfl
    · rw [checkedSource_of_error hf]
      exact iff_of_false (fun h => by cases h) (not_firstMiss_of_error hlt hf)

end Integer

theorem readIndex_column {v : View} (hc : v.column = .fixed t c) {i : Nat} (hi : i < v.len) :
    readIndex (.column v) i = readSlot c v.offset i := by
  rw [readIndex, View.scalarAt, hc, Column.scalarAt, Checked.require_of hi, ok_bind, readSlot]
  cases c.get (v.offset + i) <;> rfl

theorem firstMiss_congr {other : Nat → Checked (Option Int)} {stop : Nat}
    (h : ∀ i < stop, other i = read i) :
    FirstMiss other choices 0 stop e ↔ FirstMiss read choices 0 stop e := by
  -- The rows before a miss lie before `stop` as well, so both ways of reading agree on them.
  have hhits : ∀ i < stop, (Hits other choices i ↔ Hits read choices i) := by
    intro i hi
    rw [Hits, Hits, h i hi]
  apply exists_congr
  intro row
  apply exists_congr
  intro index
  apply and_congr_right
  intro _
  apply and_congr_right
  intro hrow
  rw [Misses, Misses, h row hrow]
  apply and_congr_right
  intro _
  apply and_congr_left
  intro _
  exact ⟨fun hall j hj hlt => (hhits j (by omega)).1 (hall j hj hlt),
    fun hall j hj hlt => (hhits j (by omega)).2 (hall j hj hlt)⟩

/-- **An index argument is rejected** because of the first row that misses. A scalar is checked as
row zero, whether or not there is one. -/
theorem spans_eq_rejected {indices : Value} (hinteger : indices.isTyped → indices.type.isInteger)
    {len : Nat} (hlen : ∀ n, indices.length? = some n → n = len) :
    spans indices len choices = .error (.rejected e) ↔
      FirstMiss (readIndex indices) choices 0 (checkedRows indices len) e := by
  cases indices with
  | scalar s =>
    have hread : readIndex (.scalar s) 0 = .ok s.asIndex? := rfl
    -- The range check runs once for a scalar, so the search is over row zero only.
    show _ ↔ FirstMiss (readIndex (.scalar s)) choices 0 1 e
    rw [spans]
    cases hindex : s.asIndex? with
    | none =>
      rw [hindex] at hread
      have hhits : Hits (readIndex (.scalar s)) choices 0 :=
        ⟨none, hread, fun index habsurd => absurd habsurd (by simp)⟩
      rw [firstMiss_of_hits hhits]
      exact iff_of_false (fun hok => by cases hok) (not_firstMiss_of_le (Nat.le_refl _))
    | some index =>
      rw [hindex] at hread
      by_cases hin : 0 ≤ index ∧ index < choices
      · rw [firstMiss_of_hits ⟨_, hread, fun other hother => Option.some.inj hother ▸ hin⟩]
        simp only [named_eq, if_pos hin]
        exact iff_of_false (fun hok => by cases hok) (not_firstMiss_of_le (Nat.le_refl _))
      · have hmiss : Misses (readIndex (.scalar s)) choices 0 index := ⟨hread, hin⟩
        rw [firstMiss_of_misses Nat.one_pos hmiss]
        simp only [named_eq, if_neg hin]
        constructor
        · intro h
          cases h
          rfl
        · rintro rfl
          rfl
  | column v =>
    obtain rfl := hlen v.len rfl
    have hinteger : v.column.type.isInteger := hinteger rfl
    show _ ↔ FirstMiss (readIndex (.column v)) choices 0 v.len e
    rw [spans]
    cases hc : v.column with
    | fixed t c =>
      rw [hc] at hinteger
      have ht : t.isInteger := hinteger
      simp only [ht, if_true]
      rw [groups_eq_rejected ht, Nat.zero_add]
      -- Reading through the view and reading the slots agree inside the view, which is all that is
      -- searched.
      exact (firstMiss_congr fun i hi => readIndex_column hc hi).symm
    | _ =>
      rw [hc] at hinteger
      cases hinteger

end Choose

/-! ## Plans -/

namespace Logged

variable {α β : Type}

/-- The computation rejects nothing. -/
def Accepts (x : Logged α) : Prop := ∀ e, x.outcome ≠ .error (.rejected e)

theorem accepts_result (log : List Event) (a : α) : Accepts (⟨log, .ok a⟩ : Logged α) := nofun

theorem accepts_ofChecked (x : Checked α) : (ofChecked x).Accepts := by
  intro e
  cases x <;> simp [ofChecked, ofOutcome, Checked.lift]

theorem Accepts.bind {x : Logged α} {f : α → Logged β} (hx : x.Accepts)
    (hf : ∀ a, (f a).Accepts) : (x >>= f).Accepts := by
  intro e
  rw [outcome_bind]
  cases h : x.outcome with
  | ok a => exact hf a e
  | error failure =>
    intro heq
    cases heq
    exact hx e h

end Logged

namespace Call

variable {c d : Call} {e : Rejection} {type : DataType} {len : Nat} {p : Path}

/-- The index check of a checked call reports the first index that names no choice. -/
inductive Misses (c : Call) : Rejection → Prop
  | index {indices : Value} {choices : List Value} {type : DataType} {len : Nat} {e : Rejection} :
      c = choose indices choices → c.check = .ok (type, len) →
      Choose.FirstMiss (Choose.readIndex indices) choices.length 0
        (Choose.checkedRows indices len) e → Misses c e

open Logged in
theorem accepts_plan (h : ∀ indices choices, c ≠ choose indices choices) (len : Nat) (p : Path) :
    (c.plan len p).Accepts := by
  cases c with
  | choose indices choices => exact absurd rfl (h indices choices)
  | ifElse condition left right =>
    rw [plan]
    cases condition with
    | scalar s => exact accepts_result _ _
    | column v => exact (accepts_ofChecked _).bind fun runs => accepts_result _ _
  | caseWhen conditions values =>
    rw [plan]
    unfold CaseWhen.plan
    split
    · exact accepts_result _ _
    · exact (accepts_ofChecked _).bind fun runs => (accepts_ofChecked _).bind fun spans =>
        accepts_result _ _
  | coalesce args =>
    rw [plan]
    unfold Coalesce.plan
    dsimp only
    rw [report_bind]
    split
    · exact accepts_result _ _
    · intro e
      exact (accepts_ofChecked _).bind (fun spans => accepts_result _ _) e

section Indices

variable {indices : Value} {choices : List Value}

theorem choose_misses (hcheck : (choose indices choices).check = .ok (type, len)) :
    (choose indices choices).Misses e ↔
      Choose.spans indices len choices.length = .error (.rejected e) := by
  obtain ⟨-, hselectors, -, hlen, -⟩ := check_eq_ok.1 hcheck
  rw [Choose.spans_eq_rejected (Arguments.checkIndex_eq_ok.1 hselectors) (hlen indices (.head _))]
  constructor
  · rintro ⟨hc, hcheck', hmiss⟩
    cases hc
    cases hcheck.symm.trans hcheck'
    exact hmiss
  · exact fun hmiss => .index rfl hcheck hmiss

end Indices

theorem Misses.eq_choose (h : c.Misses e) : ∃ indices choices type len,
    c = choose indices choices ∧ c.check = .ok (type, len) := by
  obtain ⟨hc, hcheck, -⟩ := h
  exact ⟨_, _, _, _, hc, hcheck⟩

/-- A missing choice is found in planning, before anything is logged. -/
theorem plan_eq_reject (hcheck : c.check = .ok (type, len)) (h : c.Misses e) (p : Path) :
    c.plan len p = Logged.reject e := by
  obtain ⟨indices, choices, -, -, rfl, -⟩ := h.eq_choose
  rw [plan, Choose.plan, (choose_misses hcheck).1 h]
  rfl

/-- **Planning rejects a checked call because of its indices only.** -/
theorem misses_of_plan (hcheck : c.check = .ok (type, len)) {p : Path}
    (h : (c.plan len p).outcome = .error (.rejected e)) : c.Misses e := by
  cases c with
  | choose indices choices =>
    rw [choose_misses hcheck]
    rw [plan, Choose.plan] at h
    cases hspans : Choose.spans indices len choices.length with
    | error f =>
      rw [hspans] at h
      cases h
      rfl
    | ok spans =>
      rw [hspans] at h
      cases h
  | _ => exact absurd h (accepts_plan (fun _ _ habsurd => by cases habsurd) len p e)

/-! ## Calls -/

end Call

/-- The rejection is about the arguments of a call to an operation: their number, their lengths, or
their types. -/
def Rejection.OnArguments (operation : Operation) : Rejection → Prop
  | typeMismatch op _ _ => op = operation
  | lengthMismatch .. | invalidArguments _ => True
  | indexOutOfBounds .. | allocationFailure _ => False

/-- The rejection is about an index. -/
def Rejection.OnIndex : Rejection → Prop
  | indexOutOfBounds .. => True
  | _ => False

theorem Rejection.OnArguments.not_onIndex {operation : Operation} {e : Rejection}
    (h : e.OnArguments operation) : ¬ e.OnIndex := by
  cases e with
  | indexOutOfBounds => exact fun _ => h
  | _ => exact id

namespace Call

variable {c d : Call} {e : Rejection} {type : DataType} {len : Nat}

theorem Fails.onArguments (h : c.Fails e) : e.OnArguments c.operation := by
  cases h with
  | arity | lengths => trivial
  | selector | untyped | types => rfl

theorem Misses.onIndex (h : c.Misses e) : e.OnIndex := by
  obtain ⟨-, -, row, index, -, -, -, -, rfl⟩ := h
  trivial

theorem operation_ne_builder (c : Call) : c.operation ≠ .builder := by
  cases c <;> nofun

/-- Builders report nothing about the arguments of a call, and nothing about its indices. -/
theorem not_ofBuilder (h : e.OnArguments c.operation ∨ e.OnIndex) :
    ¬ (Failure.rejected e).OfBuilder := by
  rintro (halloc | ⟨expected, found, rfl⟩)
  · cases e with
    | allocationFailure => exact h.elim id id
    | _ => exact halloc
  · rcases h with h | h
    · exact c.operation_ne_builder h.symm
    · exact h

theorem run_eq_reject_of_fails (h : c.Fails e ∨ c.Misses e) (p : Path) :
    c.run p = Logged.reject e := by
  rcases h with h | h
  · rw [run, check_eq_error.2 h]
    rfl
  · obtain ⟨-, -, type, len, -, hcheck⟩ := h.eq_choose
    rw [run, hcheck]
    show (c.plan _ p >>= fun plan => plan.run _ _) = Logged.reject e
    rw [plan_eq_reject hcheck h]
    rfl

/-- **Rejections about arguments and indices come from the checks**: those of the arguments, or
after them those of the indices. -/
theorem fails_of_run (h : e.OnArguments c.operation ∨ e.OnIndex) {p : Path}
    (hrun : (c.run p).outcome = .error (.rejected e)) : c.Fails e ∨ c.Misses e := by
  cases hcheck : c.check with
  | error e' =>
    rw [run, hcheck] at hrun
    cases hrun
    exact .inl (check_eq_error.1 hcheck)
  | ok result =>
    obtain ⟨type, len⟩ := result
    have hsteps : (c.run p).outcome =
        (c.plan len p).outcome >>= fun plan => (plan.run type len).outcome := by
      rw [run, hcheck]
      exact Logged.outcome_bind (c.plan len p) _
    rw [hsteps] at hrun
    cases hplan : (c.plan len p).outcome with
    | error f =>
      rw [hplan] at hrun
      cases hrun
      exact .inr (misses_of_plan hcheck hplan)
    | ok plan =>
      rw [hplan] at hrun
      exact absurd (plan.reported_run type len _ hrun) (not_ofBuilder h)

end Call

/-! ## Shapes -/

/-- The two values have one type and, as columns, one length. -/
structure Value.SameShape (a b : Value) : Prop where
  type : b.type = a.type
  length? : b.length? = a.length?

theorem Value.isTyped_scalar (s : Scalar) : (scalar s).isTyped = decide (s.type ≠ .null) := by
  cases s <;> rfl

theorem Value.SameShape.isTyped {a b : Value} (h : a.SameShape b) : b.isTyped = a.isTyped := by
  obtain ⟨htype, hlen⟩ := h
  cases a with
  | column v =>
    cases b with
    | column w => rfl
    | scalar s => cases hlen
  | scalar s =>
    cases b with
    | column w => cases hlen
    | scalar s' =>
      have htype : s'.type = s.type := htype
      rw [isTyped_scalar, isTyped_scalar, htype]

theorem filterMap_forall₂ {α β γ : Type} {R : α → β → Prop} {xs : List α} {ys : List β}
    (h : List.Forall₂ R xs ys) {f : α → Option γ} {g : β → Option γ}
    (hfg : ∀ x y, R x y → g y = f x) : ys.filterMap g = xs.filterMap f := by
  induction h with
  | nil => rfl
  | cons hab _ ih => rw [List.filterMap_cons, List.filterMap_cons, hfg _ _ hab, ih]

theorem Arguments.checkConditions_of_sameShape (operation : Operation)
    {conditions others : List Value} (h : List.Forall₂ Value.SameShape conditions others) :
    checkConditions operation others = checkConditions operation conditions := by
  induction h with
  | nil => rfl
  | cons hab _ ih =>
    rw [checkConditions, checkConditions, checkCondition, checkCondition, hab.isTyped, hab.type, ih]

namespace Call

variable {c d : Call}

theorem Alike.operation_eq {R : Value → Value → Prop} (h : c.Alike R d) :
    d.operation = c.operation := by
  cases h <;> rfl

/-- **Arguments of the same shape are checked alike.** -/
theorem Alike.check_eq (h : c.Alike Value.SameShape d) : d.check = c.check := by
  -- The number of arguments is a matter of how many are paired up, and the types and lengths are
  -- collected pair by pair.
  have harity : d.checkArity = c.checkArity := by
    cases h with
    | ifElse => rfl
    | caseWhen hconditions hvalues =>
      rw [Call.checkArity, Call.checkArity, CaseWhen.checkArity, CaseWhen.checkArity,
        hvalues.length_eq, hconditions.length_eq]
      cases hconditions <;> rfl
    | coalesce hargs => cases hargs <;> rfl
    | choose _ hchoices => cases hchoices <;> rfl
  have hselectors : d.checkSelectors = c.checkSelectors := by
    have hconditions :=
      Arguments.checkConditions_of_sameShape c.operation h.selectors
    cases h with
    | choose hindices =>
      rw [Call.checkSelectors, Call.checkSelectors, Arguments.checkIndex, Arguments.checkIndex,
        hindices.isTyped, hindices.type]
      rfl
    | _ => exact hconditions
  have htypes : ∀ a b, Value.SameShape a b → Arguments.typeOf? b = Arguments.typeOf? a := by
    intro a b hab
    rw [Arguments.typeOf?, hab.isTyped, hab.type, Arguments.typeOf?]
  rw [Call.check, Call.check, harity, hselectors, h.operation_eq, Arguments.commonType,
    Arguments.commonType, Arguments.commonLength, Arguments.commonLength, Arguments.map_type_filter,
    Arguments.map_type_filter, filterMap_forall₂ h.values htypes,
    filterMap_forall₂ h.arguments fun a b hab => hab.length?]

/-- **The first failing check decides.** Where a check of the arguments fails, or else one of the
indices, every path ends with what it reports, and nothing is logged. Rejections about the number,
the types or the lengths of the arguments have no other cause, and those about an index have none.
Rejections about the arguments do not depend on what the rows hold: calls on arguments of the same
shape have the same ones, on any two paths. -/
theorem checks_precede (c : Call) :
    (∀ e, c.Fails e ∨ c.Misses e → ∀ p, c.run p = Logged.reject e) ∧
      (∀ e, e.OnArguments c.operation → ∀ p,
        ((c.run p).outcome = .error (.rejected e) ↔ c.Fails e)) ∧
      (∀ e, e.OnIndex → ∀ p, ((c.run p).outcome = .error (.rejected e) ↔ c.Misses e)) ∧
      ∀ d, c.Alike Value.SameShape d → ∀ e, e.OnArguments c.operation → ∀ p q,
        ((c.run p).outcome = .error (.rejected e) ↔ (d.run q).outcome = .error (.rejected e)) := by
  -- Stated for every call, as the last part needs it for the other one too.
  have harguments : ∀ (c : Call) e, e.OnArguments c.operation → ∀ p,
      ((c.run p).outcome = .error (.rejected e) ↔ c.Fails e) := by
    intro c e he p
    constructor
    · intro hrun
      exact (fails_of_run (.inl he) hrun).resolve_right fun hmiss => he.not_onIndex hmiss.onIndex
    · intro hfails
      rw [run_eq_reject_of_fails (.inl hfails) p]
      rfl
  refine ⟨fun e he => run_eq_reject_of_fails he, harguments c, ?_, ?_⟩
  · intro e he p
    constructor
    · intro hrun
      exact (fails_of_run (.inr he) hrun).resolve_left fun hfails =>
        hfails.onArguments.not_onIndex he
    · intro hmiss
      rw [run_eq_reject_of_fails (.inr hmiss) p]
      rfl
  · intro d hd e he p q
    rw [harguments c e he p, harguments d e (hd.operation_eq ▸ he) q, ← check_eq_error,
      ← check_eq_error, hd.check_eq]

/-- A call in which all is wrong but the number of the arguments: the second condition, the types of
the values, and the lengths. -/
def misfits (flag : Bool) (number : FixedType.int32.Slot) : Call :=
  caseWhen
    [.ofColumn (.boolean (.ofList [flag, true])), .ofColumn (.fixed .int32 (.ofList [number]))]
    [.ofColumn (.fixed .int32 (.ofList [number])), .scalar (.boolean (some flag))]

theorem checks_precede_misfits :
    (∀ p, (misfits true 1).run p =
      Logged.reject (.typeMismatch .caseWhen (.type .boolean) (some (.fixed .int32)))) ∧
    ∀ q, ((misfits false 2).run q).outcome =
      .error (.rejected (.typeMismatch .caseWhen (.type .boolean) (some (.fixed .int32)))) := by
  obtain ⟨hprecedes, -, -, hshape⟩ := checks_precede (misfits true 1)
  have hfails : (misfits true 1).Fails
      (.typeMismatch .caseWhen (.type .boolean) (some (.fixed .int32))) := check_eq_error.1 rfl
  have halike : (misfits true 1).Alike Value.SameShape (misfits false 2) :=
    .caseWhen (.cons ⟨rfl, rfl⟩ (.cons ⟨rfl, rfl⟩ .nil)) (.cons ⟨rfl, rfl⟩ (.cons ⟨rfl, rfl⟩ .nil))
  have hrun := hprecedes _ (.inl hfails)
  refine ⟨hrun, fun q => (hshape _ halike _ hfails.onArguments .auto q).1 ?_⟩
  rw [hrun]
  rfl

end Call

end Columnar
