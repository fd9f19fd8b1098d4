import Columnar.Proofs.Plan.Payload
import Columnar.Proofs.Select.Answer

/-!
# When output is reserved

Checking and planning reserve nothing, and carrying out a plan begins with a reservation. So a
rejection that the checks or the plan find comes before any reservation. Two things are left to the
builder to find, and it finds them too late for that: that the type of the values has no builder,
and that a list scalar carries elements of another type than it states. The latter it finds only
where a row is taken from such a scalar.
-/

namespace Columnar

namespace Logged

variable {α β : Type}

/-- Nothing is reserved. -/
def Quiet (x : Logged α) : Prop := ∀ e ∈ x.log, ¬ e.IsReservation

theorem quiet_ofOutcome (x : Except Failure α) : (ofOutcome x).Quiet := nofun

theorem outcome_check_eq_ok {x : Except Rejection α} {a : α} :
    (check x).outcome = .ok a ↔ x = .ok a := by
  cases x <;> simp [check, ofOutcome, Failure.ofRejected]

theorem quiet_report {e : Event} (h : ¬ e.IsReservation) : (report e).Quiet := by
  intro e' he
  rwa [List.mem_singleton.1 he]

/-- What a sequence logs: the log of its first part, and that of the second if it comes to it. -/
theorem mem_log_bind {x : Logged α} {f : α → Logged β} {e : Event} :
    e ∈ (x >>= f).log ↔ e ∈ x.log ∨ ∃ a, x.outcome = .ok a ∧ e ∈ (f a).log := by
  simp only [bind, andThen]
  cases x.outcome <;> simp

theorem Quiet.bind {x : Logged α} {f : α → Logged β} (hx : x.Quiet)
    (hf : ∀ a, x.outcome = .ok a → (f a).Quiet) : (x >>= f).Quiet := by
  intro e he
  rcases mem_log_bind.1 he with he | ⟨a, ha, he⟩
  · exact hx e he
  · exact hf a ha e he

end Logged

theorem Plan.run_reserves (plan : Plan) (type : DataType) (len : Nat) :
    ∃ e ∈ (plan.run type len).log, e.IsReservation := by
  refine ⟨.reservation type len (plan.payload len), Logged.mem_log_bind.2 (.inl ?_), trivial⟩
  unfold Builder.reserve
  exact .head _

namespace Call

variable {c : Call} {p : Path}

section Planning

open Logged

theorem quiet_plan (c : Call) (len : Nat) (path : Path) : (c.plan len path).Quiet := by
  cases c with
  | ifElse condition left right =>
    cases condition with
    | scalar s => exact (quiet_report id).bind fun _ _ => quiet_ofOutcome _
    | column v =>
      exact (quiet_ofOutcome _).bind fun _ _ => (quiet_report id).bind fun _ _ => quiet_ofOutcome _
  | caseWhen conditions values =>
    rw [plan, CaseWhen.plan]
    split
    · exact (quiet_report id).bind fun _ _ => quiet_ofOutcome _
    · exact (quiet_ofOutcome _).bind fun _ _ => (quiet_ofOutcome _).bind fun _ _ =>
        (quiet_report id).bind fun _ _ => quiet_ofOutcome _
  | coalesce args =>
    refine (quiet_report id).bind fun _ _ => ?_
    split
    · exact quiet_ofOutcome _
    · exact (quiet_ofOutcome _).bind fun _ _ => (quiet_report id).bind fun _ _ => quiet_ofOutcome _
  | choose indices choices =>
    exact (quiet_ofOutcome _).bind fun _ _ => (quiet_report id).bind fun _ _ => quiet_ofOutcome _

/-- A call reserves output exactly when it has been checked and planned. -/
theorem reserves_iff : (∃ e ∈ (c.run p).log, e.IsReservation) ↔
    ∃ type len plan, c.check = .ok (type, len) ∧ (c.plan len p).outcome = .ok plan := by
  rw [run]
  constructor
  · rintro ⟨e, he, hreservation⟩
    rcases mem_log_bind.1 he with he | ⟨⟨type, len⟩, hcheck, he⟩
    · exact absurd hreservation (quiet_ofOutcome _ e he)
    rcases mem_log_bind.1 he with he | ⟨plan, hplan, -⟩
    · exact absurd hreservation (quiet_plan c len p e he)
    · exact ⟨type, len, plan, outcome_check_eq_ok.1 hcheck, hplan⟩
  · rintro ⟨type, len, plan, hcheck, hplan⟩
    obtain ⟨e, he, hreservation⟩ := plan.run_reserves type len
    refine ⟨e, mem_log_bind.2 (.inr ⟨(type, len), outcome_check_eq_ok.2 hcheck, ?_⟩), hreservation⟩
    exact mem_log_bind.2 (.inr ⟨plan, hplan, he⟩)

end Planning

/-- Over well-formed arguments, output is reserved exactly when the checks pass and no index is bad.
-/
theorem reserves_iff_passes (hwell : ∀ a ∈ c.arguments, a.WellFormed) :
    (∃ e ∈ (c.run p).log, e.IsReservation) ↔
      ∃ type len, c.check = .ok (type, len) ∧ c.firstBad len = none := by
  rw [reserves_iff]
  constructor
  · rintro ⟨type, len, plan, hcheck, hplan⟩
    refine ⟨type, len, hcheck, ?_⟩
    have hspec := plan_spec hwell hcheck p
    cases hbad : c.firstBad len with
    | none => rfl
    | some e =>
      rw [hbad] at hspec
      rw [hspec] at hplan
      cases hplan
  · rintro ⟨type, len, hcheck, hbad⟩
    have hspec := plan_spec hwell hcheck p
    rw [hbad] at hspec
    obtain ⟨plan, hplan, -⟩ := hspec
    exact ⟨type, len, plan, hcheck, hplan⟩

/-- A rejection for another reason than memory, after the checks have passed and no index was bad,
is about a type without a builder or about a row that does not fit. -/
theorem rejected_late (hwell : ∀ a ∈ c.arguments, a.WellFormed) {e : Rejection}
    (h : (c.run p).outcome = .error (.rejected e)) (he : ¬ e.IsAllocation) {type : DataType}
    {len : Nat} (hcheck : c.check = .ok (type, len)) (hbad : c.firstBad len = none) :
    ¬ type.Concrete ∨ ∃ i < len, c.supply.misfit type i = some e := by
  rcases run_answer hwell p with ⟨f, hf, halloc⟩ | hanswer
  · cases h.symm.trans hf
    exact absurd halloc he
  rw [h] at hanswer
  cases hanswer with
  | rejected hcheck' => exact absurd (hcheck.symm.trans hcheck') (by simp)
  | badIndex hcheck' hbad' =>
    cases hcheck.symm.trans hcheck'
    exact absurd (hbad.symm.trans hbad') (by simp)
  | supplied hcheck' _ hanswer =>
    cases hcheck.symm.trans hcheck'
    cases hanswer with
    | abstract habstract => exact .inl habstract
    | breaks _ hbreak =>
      rcases Supply.firstBreak_cases hbreak with ⟨i, hi, e', hmisfit, hreason⟩ | ⟨hreason, -⟩
      · cases hreason
        exact .inr ⟨i, hi, hmisfit⟩
      · cases hreason

theorem misfit_supply_of_agrees {type : DataType} {len : Nat} (hcheck : c.check = .ok (type, len))
    (hconcrete : type.Concrete) {i : Nat} (h : ∀ value, c.supply i = some value → value.Agrees) :
    c.supply.misfit type i = none := by
  rw [Supply.misfit, Option.bind_eq_none_iff]
  intro value hvalue
  have hfits := (check_eq_ok.1 hcheck).2.2.1.2 value (mem_values_of_supply hvalue)
  exact Value.misfit_of_agrees hconcrete hfits (h value hvalue)

/-- **Which rejections come before any reservation.** A call that is rejected for another reason
than memory has reserved nothing exactly if, so far as the checks pass and no index is bad, the
type of its values has a builder and every row that is taken fits it. In particular it has reserved
nothing if that type has a builder and the list scalars from which rows are taken carry elements of
the type that they state. -/
theorem rejected_unreserved_iff (hwell : ∀ a ∈ c.arguments, a.WellFormed) {e : Rejection}
    (h : (c.run p).outcome = .error (.rejected e)) (he : ¬ e.IsAllocation) :
    ((∀ event ∈ (c.run p).log, ¬ event.IsReservation) ↔
      ∀ type len, c.check = .ok (type, len) → c.firstBad len = none →
        type.Concrete ∧ ∀ i < len, c.supply.misfit type i = none) ∧
    ((∀ type len, c.check = .ok (type, len) →
        type.Concrete ∧ ∀ i < len, ∀ value, c.supply i = some value → value.Agrees) →
      ∀ event ∈ (c.run p).log, ¬ event.IsReservation) := by
  have hiff : (∀ event ∈ (c.run p).log, ¬ event.IsReservation) ↔
      ∀ type len, c.check = .ok (type, len) → c.firstBad len = none →
        type.Concrete ∧ ∀ i < len, c.supply.misfit type i = none := by
    constructor
    · intro hquiet type len hcheck hbad
      obtain ⟨event, hmem, hreservation⟩ :=
        (reserves_iff_passes (p := p) hwell).2 ⟨type, len, hcheck, hbad⟩
      exact absurd hreservation (hquiet event hmem)
    · intro hfits event hmem hreservation
      obtain ⟨type, len, hcheck, hbad⟩ := (reserves_iff_passes hwell).1 ⟨event, hmem, hreservation⟩
      obtain ⟨hconcrete, hnone⟩ := hfits type len hcheck hbad
      rcases rejected_late hwell h he hcheck hbad with habstract | ⟨i, hi, hmisfit⟩
      · exact habstract hconcrete
      · exact absurd ((hnone i hi).symm.trans hmisfit) (by simp)
  refine ⟨hiff, fun hagrees => hiff.2 ?_⟩
  intro type len hcheck _
  obtain ⟨hconcrete, hsupply⟩ := hagrees type len hcheck
  exact ⟨hconcrete, fun i hi => misfit_supply_of_agrees hcheck hconcrete (hsupply i hi)⟩

/-- A choice by one condition between a list of text that states integer elements, and the null
list of integers. -/
def unfitChoice (condition : Bool) : Call :=
  ifElse (.scalar (.boolean (some condition)))
    (.scalar (.list (.fixed .int32) (some (.text .string ⟨[0, 1], [97], none⟩))))
    (.scalar (.list (.fixed .int32) none))

/-- With a true condition the builder finds that the row does not fit. The same arguments are
accepted with a false condition, which takes the row from the other value. -/
theorem unfitChoice_reserves :
    ((unfitChoice true).run .auto).outcome = .error (.rejected
        (.typeMismatch .builder (.type (.fixed .int32)) (some (.text .string)))) ∧
      (∃ event ∈ ((unfitChoice true).run .auto).log, event.IsReservation) ∧
      ((unfitChoice false).run .auto).outcome.isOk = true :=
  ⟨rfl, by decide, by decide⟩

theorem rejected_unreserved_iff_unfitChoice :
    ¬ ∀ type len, (unfitChoice true).check = .ok (type, len) →
      (unfitChoice true).firstBad len = none →
      type.Concrete ∧ ∀ i < len, (unfitChoice true).supply.misfit type i = none := by
  intro hfits
  have hquiet := (rejected_unreserved_iff (c := unfitChoice true) (p := .auto) (by decide) rfl
    (by decide)).1.2 hfits
  exact absurd hquiet (by decide)

end Call

/-! ## How much output is reserved

A call logs the reservation of its output before it copies a row, and the rows are copied by other
code than that which counted them. The two agree: on the span plan **the hint is the payload of the
output**, and on the row plan it is no less. No size has to be assumed to be small for that, since
an output whose payload is past the greatest size does not come about.
-/

/-- The bytes of text in the column's buffer, or the number of its child's rows. Columns without
offsets have no payload. -/
def Column.payload : Column → Nat
  | text _ c => c.bytes.length
  | list _ child => child.length
  | _ => 0

/-- A canonical column stores the payload of its rows and no more. -/
theorem Column.Canonical.payload_eq {c : Column} (h : c.Canonical) :
    c.payload = c.type.payloadOf c.rows := by
  cases c with
  | fixed | boolean | null => rfl
  | text t c =>
    have hparts : (c.offsets.partsFrom c.bytes 0 c.length).flatten = c.bytes :=
      h.1.flatten_partsFrom
    rw [type, DataType.payloadOf, rows_eq_rowsFrom, length, rowsFrom_text,
      Row.textBytesOf_zipWith_text (by simp), hparts, payload]
  | list r child =>
    rw [type, DataType.payloadOf, elementsOf_rows_list h.1, length_rows, payload]

namespace Logged

variable {α β : Type} {x : Logged α} {f : α → Logged β}

/-- The first reservation of the log. It is that of the output, since children report after it. -/
def reservation? (x : Logged α) : Option Event := x.log.find? fun e => e.IsReservation

theorem reservation?_bind_of_quiet {a : α} (hx : x.Quiet) (ha : x.outcome = .ok a) :
    (x >>= f).reservation? = (f a).reservation? := by
  have hnone : (x.log.find? fun e => e.IsReservation) = none :=
    List.find?_eq_none.2 fun e he => by simpa using hx e he
  simp only [reservation?, bind, andThen, ha]
  rw [List.find?_append, hnone, Option.none_or]

theorem reservation?_bind_of_some {e : Event} (hx : x.reservation? = some e) :
    (x >>= f).reservation? = some e := by
  rw [reservation?] at hx
  simp only [reservation?, bind, andThen]
  cases x.outcome with
  | ok a => rw [List.find?_append, hx, Option.some_or]
  | error f => exact hx

end Logged

theorem Plan.reservation?_run (plan : Plan) (type : DataType) (len : Nat) :
    (plan.run type len).reservation? = some (.reservation type len (plan.payload len)) := by
  apply Logged.reservation?_bind_of_some
  unfold Builder.reserve
  rfl

namespace Call

variable {c : Call} {p : Path}

/-- What a call that gives a column has gone through: its check, a plan of its supply, and the
carrying out of that plan. -/
theorem run_eq_ok (hwell : ∀ a ∈ c.arguments, a.WellFormed) {out : Column}
    (h : (c.run p).outcome = .ok out) :
    ∃ type len plan, c.check = .ok (type, len) ∧ (c.plan len p).outcome = .ok plan ∧
      plan.Supplies len c.supply ∧ (plan.run type len).outcome = .ok out := by
  obtain ⟨⟨type, len⟩, hcheck, h⟩ := Logged.outcome_bind_eq_ok.1 h
  obtain ⟨plan, hplan, hrun⟩ := Logged.outcome_bind_eq_ok.1 h
  have hcheck := Logged.outcome_check_eq_ok.1 hcheck
  refine ⟨type, len, plan, hcheck, hplan, ?_, hrun⟩
  have hspec := plan_spec hwell hcheck p
  cases hbad : c.firstBad len with
  | some e =>
    rw [hbad] at hspec
    rw [hspec] at hplan
    cases hplan
  | none =>
    rw [hbad] at hspec
    obtain ⟨plan', hplan', hsupplies⟩ := hspec
    cases hplan.symm.trans hplan'
    exact hsupplies

/-- The reservation that such a call logs first is that of its plan. -/
theorem reservation?_run {type : DataType} {len : Nat} {plan : Plan}
    (hcheck : c.check = .ok (type, len)) (hplan : (c.plan len p).outcome = .ok plan) :
    (c.run p).reservation? = some (.reservation type len (plan.payload len)) := by
  have hchecked : (c.run p).reservation? =
      (c.plan len p >>= fun plan => plan.run type len).reservation? :=
    Logged.reservation?_bind_of_quiet (Logged.quiet_ofOutcome _)
      (Logged.outcome_check_eq_ok.2 hcheck)
  rw [hchecked, Logged.reservation?_bind_of_quiet (quiet_plan c len p) hplan]
  exact plan.reservation?_run type len

/-- **Reservations are exact for spans and enough for rows.** A call that gives a column has logged
the reservation of it, for the column's type and length, with a hint. If the plan that was carried
out is a span plan, the hint is the payload of the column, and if it is a row plan, the hint is no
less. -/
theorem reservation_suffices (hwell : ∀ a ∈ c.arguments, a.WellFormed) {out : Column}
    (h : (c.run p).outcome = .ok out) :
    ∃ plan hint, (c.plan out.length p).outcome = .ok plan ∧
      (plan.run out.type out.length).outcome = .ok out ∧
      (c.run p).reservation? = some (.reservation out.type out.length hint) ∧
      match plan with
      | .spans _ _ => hint = out.payload
      | .rows _ _ => out.payload ≤ hint := by
  obtain ⟨type, len, plan, hcheck, hplan, hsupplies, hrun⟩ := run_eq_ok hwell h
  have hready := ready_supply hwell hcheck
  rcases plan.run_answer hsupplies hready with ⟨f, hf, -⟩ | hanswer
  · exact absurd (hrun.symm.trans hf) (by simp)
  rw [hrun] at hanswer
  cases hanswer with
  | column _ _ hcanonical htype hrows =>
    obtain rfl := htype
    obtain rfl : out.length = len := (Column.row_of_rows_eq hrows).1
    have hroom := Column.room_rowsFrom hcanonical.wellFormed
      (Nat.le_of_eq (Nat.zero_add out.length))
    have hpayload : min (out.type.payloadOf (c.supply.rows out.type out.length)) maxSize =
        out.payload := by
      rw [← hrows, hcanonical.payload_eq, out.rows_eq_rowsFrom]
      exact Nat.min_eq_left hroom.payloadOf_le
    refine ⟨plan, plan.payload out.length, hplan, hrun, reservation?_run hcheck hplan, ?_⟩
    cases plan with
    | spans values ss => exact (Plan.payload_spans hsupplies hready).trans hpayload
    | rows values source => exact hpayload ▸ Plan.payload_rows hsupplies hready

/-- Of three lists of texts the first is taken, with the element that its null spans. Spans reserve
for this element, and rows for those of all three lists. -/
theorem reservation_suffices_listChoice : ∃ out,
    (listChoice.run .spans).outcome = .ok out ∧ (listChoice.run .rows).outcome = .ok out ∧
      out.payload = 1 ∧
      (listChoice.run .spans).reservation? = some (.reservation out.type 3 out.payload) ∧
      ∃ hint, (listChoice.run .rows).reservation? = some (.reservation out.type 3 hint) ∧
        out.payload ≤ hint := by
  refine ⟨.list ⟨[0, 1, 1, 1], .ofList [false, false, false]⟩
    (.text .string ⟨[0, 1], [97], none⟩), rfl, rfl, rfl, ?_, ?_⟩
  · obtain ⟨plan, hint, hplan, -, hreserved, hhint⟩ :=
      reservation_suffices (c := listChoice) (p := .spans) (by decide) rfl
    cases hplan
    cases hhint
    exact hreserved
  · obtain ⟨plan, hint, hplan, -, hreserved, hhint⟩ :=
      reservation_suffices (c := listChoice) (p := .rows) (by decide) rfl
    cases hplan
    exact ⟨hint, hreserved, hhint⟩

end Call

end Columnar
