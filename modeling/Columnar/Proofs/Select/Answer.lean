import Columnar.Proofs.Column.Slice
import Columnar.Proofs.Select.Operations

/-!
# The answer of a call

A call has one answer, whichever path it takes, and the answer is canonical. Slices and repeated
scalars are canonical as well, so how a column was made does not show, unless a null type is inside.
-/

namespace Columnar

/-! ## A call has one answer

The plans of all four selections supply what the selectors pick, so the **answer** of a call can be
told from its arguments: the rejection of a check, the first bad index, or what the supply comes to.
No path occurs in it.
-/

namespace Call

variable {c : Call} {type : DataType} {len : Nat}

/-- The rejection of the first index that names no choice. Only `choose` has indices. -/
def firstBad (c : Call) (len : Nat) : Option Rejection :=
  match c with
  | choose indices choices => Choose.firstBad indices len choices.length
  | _ => none

/-- How a call ends, allocations aside. -/
inductive Answer (c : Call) : Except Failure Column → Prop
  | rejected {e : Rejection} : c.check = .error e → Answer c (.error (.rejected e))
  | badIndex {type : DataType} {len : Nat} {e : Rejection} : c.check = .ok (type, len) →
      c.firstBad len = some e → Answer c (.error (.rejected e))
  | supplied {type : DataType} {len : Nat} {x : Except Failure Column} :
      c.check = .ok (type, len) → c.firstBad len = none → c.supply.Answer type len x → Answer c x

/-- **A call has one answer.** -/
theorem Answer.unique {x y : Except Failure Column} (hx : c.Answer x) (hy : c.Answer y) :
    x = y := by
  cases hx with
  | rejected he =>
    cases hy with
    | rejected he' => rw [Except.error.inj (he.symm.trans he')]
    | badIndex hcheck | supplied hcheck => exact absurd (he.symm.trans hcheck) (by simp)
  | badIndex hcheck hbad =>
    cases hy with
    | rejected he' => exact absurd (he'.symm.trans hcheck) (by simp)
    | badIndex hcheck' hbad' =>
      cases hcheck.symm.trans hcheck'
      rw [Option.some.inj (hbad.symm.trans hbad')]
    | supplied hcheck' hbad' =>
      cases hcheck.symm.trans hcheck'
      exact absurd (hbad.symm.trans hbad') (by simp)
  | supplied hcheck hbad hanswer =>
    cases hy with
    | rejected he' => exact absurd (he'.symm.trans hcheck) (by simp)
    | badIndex hcheck' hbad' =>
      cases hcheck.symm.trans hcheck'
      exact absurd (hbad'.symm.trans hbad) (by simp)
    | supplied hcheck' _ hanswer' =>
      cases hcheck.symm.trans hcheck'
      exact hanswer.unique hanswer'

/-- The plan of a checked call, on any path: the rejection of a bad index, or the supply. -/
theorem plan_spec (hwell : ∀ a ∈ c.arguments, a.WellFormed) (hcheck : c.check = .ok (type, len))
    (path : Path) :
    match c.firstBad len with
    | some e => c.plan len path = Logged.reject e
    | none => ∃ plan, (c.plan len path).outcome = .ok plan ∧ plan.Supplies len c.supply := by
  obtain ⟨harity, hselectors, -, hlen, -⟩ := check_eq_ok.1 hcheck
  cases c with
  | ifElse condition left right =>
    have hmem : condition ∈ (ifElse condition left right).arguments := .head _
    have hfits := Arguments.checkConditions_eq_ok.1 hselectors condition (.head _)
    exact IfElse.plan_supplies hfits (hwell _ hmem) (hlen _ hmem) path
  | caseWhen conditions values =>
    have hmem : ∀ a ∈ conditions, a ∈ (caseWhen conditions values).arguments :=
      fun a ha => List.mem_append_left _ ha
    have hfits := Arguments.checkConditions_eq_ok.1 hselectors
    exact CaseWhen.plan_supplies harity hfits (fun a ha => hwell a (hmem a ha))
      (fun a ha => hlen a (hmem a ha)) path
  | coalesce args => exact Coalesce.plan_supplies hwell hlen path
  | choose indices choices =>
    have hmem : indices ∈ (choose indices choices).arguments := .head _
    exact Choose.plan_spec (Arguments.checkIndex_eq_ok.1 hselectors) (hwell _ hmem) (hlen _ hmem)
      path

/-- A bad index rejects the call before anything is logged. -/
theorem run_eq_reject (hwell : ∀ a ∈ c.arguments, a.WellFormed) (hcheck : c.check = .ok (type, len))
    {e : Rejection} (hbad : c.firstBad len = some e) (path : Path) :
    c.run path = Logged.reject e := by
  have hplan := plan_spec hwell hcheck path
  rw [hbad] at hplan
  rw [run, hcheck]
  show (c.plan len path >>= fun plan => plan.run type len) = Logged.reject e
  rw [hplan]
  rfl

/-- **On any path a call comes to its answer**, unless an allocation is refused. -/
theorem run_answer (hwell : ∀ a ∈ c.arguments, a.WellFormed) (path : Path) :
    (∃ f, (c.run path).outcome = .error f ∧ f.IsAllocation) ∨ c.Answer (c.run path).outcome := by
  cases hcheck : c.check with
  | error e =>
    rw [run, hcheck]
    exact .inr (.rejected hcheck)
  | ok result =>
    obtain ⟨type, len⟩ := result
    have hrun : (c.run path).outcome =
        (c.plan len path).outcome >>= fun plan => (plan.run type len).outcome := by
      rw [run, hcheck]
      exact Logged.outcome_bind (c.plan len path) _
    -- A bad index ends the call in planning. Otherwise the plan supplies the rows and can be
    -- carried out.
    cases hbad : c.firstBad len with
    | some e =>
      rw [run_eq_reject hwell hcheck hbad path]
      exact .inr (.badIndex hcheck hbad)
    | none =>
      have hplan := plan_spec hwell hcheck path
      rw [hbad] at hplan
      obtain ⟨plan, hplan, hsupplies⟩ := hplan
      rw [hrun, hplan]
      rcases plan.run_answer hsupplies (ready_supply hwell hcheck) with halloc | hanswer
      · exact .inl halloc
      · exact .inr (.supplied hcheck hbad hanswer)

end Call

/-! ## Paths agree

A path decides how a call makes its output and not what the output is. Where memory is refused on
neither, two paths end in the same rejection, or in the same column down to its buffers.
-/

namespace Call

/-- There is no memory for the output: an allocation is refused, or the process ends because the
output has more text than can be addressed. -/
def OutOfMemory (c : Call) (x : Except Failure Column) : Prop :=
  (∃ f, x = .error f ∧ f.IsAllocation) ∨
    x = .error (.fault .tooLarge) ∧
      ∃ type len, c.check = .ok (type, len) ∧ addressableBytes < Row.textBytesOf (c.rows type len)

variable {c : Call}

theorem Answer.rows_eq {out : Column} (h : c.Answer (.ok out)) :
    ∃ type len, c.check = .ok (type, len) ∧ out.Canonical ∧ out.type = type ∧
      out.rows = c.rows type len := by
  cases h with
  | supplied hcheck _ hanswer =>
    cases hanswer with
    | column _ _ hcanonical htype hrows =>
      rw [rows_supply] at hrows
      exact ⟨_, _, hcheck, hcanonical, htype, hrows⟩

theorem row_of_rows_eq {out : Column} {type : DataType} {len : Nat}
    (h : out.rows = c.rows type len) :
    out.length = len ∧ ∀ i < len, out.row i = c.row type i :=
  Column.row_of_rows_eq h

/-- A choice between a list column, whose first list is stored under a null, and null lists. The
condition is a window of two false rows around a true one, the last of them null. -/
def listChoice : Call :=
  ifElse
    (.column ⟨.boolean ⟨.ofList [true, true, false, false], .ofList [true, true, true, false]⟩, 1,
      3, by decide⟩)
    (.ofColumn (.list ⟨[0, 1, 1, 3], .ofList [false, true, true]⟩
      (.text .string ⟨[0, 1, 2, 3], [97, 98, 99], none⟩)))
    (.scalar (.list (.text .string) none))

end Call

/-! ## Everything that is given is canonical

Columns come out of the library in three ways: a call gives one, a scalar is repeated to one, and
rows are copied out of one. The three make their buffers in ways of their own, from inputs that need
not be canonical. All the same, what they give is canonical and as long as asked, so how a column
was made does not show: **two of the same concrete type with the same rows are the same column**.
Columns of the null type are the exception: there are several, and they have no rows to tell them
apart.
-/

namespace Column

/-- The column is an output for which `len` rows were asked: what a call over well-formed arguments
gives, what a scalar repeats to, or a copy of rows of a well-formed column. -/
inductive Output : Column → Nat → Prop
  | given {c : Call} {p : Path} {type : DataType} {len : Nat} {out : Column} :
      (∀ a ∈ c.arguments, a.WellFormed) → c.check = .ok (type, len) →
      (c.run p).outcome = .ok out → Output out len
  | repeated {s : Scalar} {len : Nat} {out : Column} :
      s.WellFormed → (s.toColumn len).outcome = .ok out → Output out len
  | copied {c : Column} {offset len : Nat} {out : Column} :
      c.WellFormed → offset + len ≤ c.length → c.slice offset len = .ok out → Output out len

theorem Output.canonical {out : Column} {len : Nat} (h : Output out len) :
    out.Canonical ∧ out.length = len := by
  cases h with
  | @given c p type len out hwell hcheck hout =>
    rcases Call.run_answer hwell p with ⟨f, hf, -⟩ | hanswer
    · exact absurd (hout.symm.trans hf) (by simp)
    · rw [hout] at hanswer
      obtain ⟨type', len', hcheck', hcanonical, -, hrows⟩ := hanswer.rows_eq
      cases hcheck.symm.trans hcheck'
      exact ⟨hcanonical, (Call.row_of_rows_eq hrows).1⟩
  | repeated hs hout =>
    obtain ⟨-, hcanonical, -, hrows⟩ := Scalar.toColumn_spec hs hout
    exact ⟨hcanonical, by simpa using congrArg List.length hrows⟩
  | copied hc hr hout =>
    obtain ⟨d, hd, hcanonical, -, hrows⟩ := slice_spec hc hr
    cases hout.symm.trans hd
    exact ⟨hcanonical, by simpa using congrArg List.length hrows⟩

/-- **Outputs are canonical, and their rows say all.** An output has the length that was asked for.
Another one of its type with the same rows is the same column, buffers and all, if the type has no
null type inside. If it has, which only copies of lists do, the two are the same up to the name of
the empty column there. -/
theorem output_determined {a : Column} {len : Nat} (ha : Output a len) :
    a.Canonical ∧ a.length = len ∧
      ∀ {b : Column} {len' : Nat}, Output b len' → a.type = b.type → a.rows = b.rows →
        a.anonymous = b.anonymous ∧ (a.type.Concrete → a = b) := by
  obtain ⟨hcanonical, hlen⟩ := ha.canonical
  refine ⟨hcanonical, hlen, ?_⟩
  intro b len' hb htype hrows
  have hcanonical' := hb.canonical.1
  exact ⟨hcanonical.anonymous_ext hcanonical' htype hrows,
    fun hconcrete => hcanonical.ext hconcrete hcanonical' htype hrows⟩

/-- What a choice between lists gives is a copy of the three rows in the middle of a column with
spare elements, a first offset of one, and a mask over five rows. -/
theorem output_determined_listChoice :
    ∃ a b : Column, (Call.listChoice.run .auto).outcome = .ok a ∧
      (list ⟨[1, 1, 2, 2, 2, 4], some (.ofList [true, false, false, false, true])⟩
        (text .string ⟨[0, 1, 2, 3, 4], [98, 97, 99, 100], none⟩)).slice 1 3 = .ok b ∧
      a.Canonical ∧ a.length = 3 ∧ a = b := by
  have hgiven : Output (list ⟨[0, 1, 1, 1], .ofList [false, false, false]⟩
      (text .string ⟨[0, 1], [97], none⟩)) 3 :=
    .given (c := Call.listChoice) (p := .auto) (by decide) rfl (by decide)
  have hcopied : Output (list ⟨[0, 1, 1, 1], some (.ofList [false, false, false])⟩
      (text .string ⟨[0, 1], [97], none⟩)) 3 :=
    .copied (c := list ⟨[1, 1, 2, 2, 2, 4], some (.ofList [true, false, false, false, true])⟩
      (text .string ⟨[0, 1, 2, 3, 4], [98, 97, 99, 100], none⟩)) (by decide)
      (show 1 + 3 ≤ 5 by decide) (by decide)
  obtain ⟨hcanonical, hlen, hsame⟩ := output_determined hgiven
  exact ⟨_, _, by decide, by decide, hcanonical, hlen,
    (hsame hcopied rfl rfl).2 trivial⟩

/-- The rows of a list column do not say which column of the null type its empty lists are in, and a
copy keeps the one that it finds. So two copies of a row may agree in type and rows and differ. -/
theorem slice_ne_of_nullChild :
    ∃ a b : Column,
      (list ⟨[0, 0], none⟩ (null .untyped)).slice 0 1 = .ok a ∧
      (list ⟨[0, 0], none⟩ (null .numeric)).slice 0 1 = .ok b ∧
      Output a 1 ∧ Output b 1 ∧ a.type = b.type ∧ a.rows = b.rows ∧ a ≠ b := by
  have hcopied (kind : NullKind) : (list ⟨[0, 0], none⟩ (null kind)).slice 0 1 =
      .ok (list ⟨[0, 0], none⟩ (null kind)) := rfl
  have hwell (kind : NullKind) : (list ⟨[0, 0], none⟩ (null kind)).WellFormed :=
    ⟨(by decide : Offsets.Ascend [0, 0] 0), trivial, trivial⟩
  have houtput (kind : NullKind) : Output (list ⟨[0, 0], none⟩ (null kind)) 1 :=
    .copied (hwell kind) (show 0 + 1 ≤ 1 by decide) (hcopied kind)
  exact ⟨_, _, hcopied .untyped, hcopied .numeric, houtput .untyped, houtput .numeric, rfl, rfl,
    by decide⟩

end Column

end Columnar
