import Columnar.Failure

/-!
# Paths and logs

How a call may go about its output, and what it reports of that.
-/

namespace Columnar

/-! ## Selection paths

A call makes its output from a plan in one of two ways: by **spans**, whole segments copied at
once, or by **rows**, one at a time. A path fixes the way or leaves it to the statistics of the
plan.
-/

/-- How a call may make its output. -/
inductive Path
  | auto
  | spans
  | rows
  deriving DecidableEq

namespace Path

/-- The least average length of the spans for which copying spans pays off. -/
def minAverageSpan : Nat := 8

/-- Spans are taken for a plan of `spans` segments over `len` rows. Left open, they are taken when
they are long on average or when the caller prefers them anyway. -/
def useSpans (path : Path) (spans len : Nat) (prefer : Bool) : Bool :=
  match path with
  | .spans => true
  | .rows => false
  | .auto => prefer || mulSat spans minAverageSpan ≤ len

def name : Path → String
  | auto => "Auto"
  | spans => "Runs"
  | rows => "RowWise"

end Path

/-! ## Logged calls

Calls report what they do: the plan that they arrive at, and every output builder that they reserve.
The log is data. A **logged** computation is its log together with its outcome, and a sequence of
logged computations logs until the first one that fails. So a statement such as "a rejected call
reserves nothing" is about a list.
-/

/-- What a call reports. -/
inductive Event
  /-- A condition that is one scalar fills all rows from one side. -/
  | scalarCondition (condition : Option Bool) (rows : Nat)
  /-- The spans of a condition column. -/
  | conditionSpans (spans rows : Nat) (path : Path) (bySpans : Bool)
  /-- Several conditions, taken row by row from the start. -/
  | conditionRows (rows conditions : Nat)
  /-- The segments merged from the runs of several conditions. -/
  | conditionSegments (segments runs rows : Nat) (path : Path) (bySpans : Bool)
  /-- The arguments that can still supply a value. -/
  | keptArguments (kept arguments rows : Nat)
  /-- The segments merged from the validity of the arguments. -/
  | validitySegments (segments rows : Nat) (path : Path) (bySpans : Bool)
  /-- The groups of equal indices. -/
  | indexGroups (groups rows choices : Nat) (path : Path) (bySpans : Bool)
  /-- A builder of output. Lists report their child's builder after their own. -/
  | reservation (type : DataType) (rows hint : Nat)
  /-- The chunks of a partitioned call. -/
  | chunks (rows count size : Nat)
  deriving DecidableEq

namespace Event

/-- The event is the reservation of output. -/
def IsReservation : Event → Prop
  | reservation .. => True
  | _ => False

instance : DecidablePred IsReservation := fun e => by
  cases e <;> unfold IsReservation <;> infer_instance

/-- The end of a plan's report: the path and whether it comes to spans. -/
def renderPath (path : Path) (bySpans : Bool) : String :=
  ", path=" ++ path.name ++ ", runs=" ++ (if bySpans then "true" else "false")

def renderTruth : Option Bool → String
  | some true => "true"
  | some false => "false"
  | none => "null"

def render : Event → String
  | scalarCondition condition rows =>
    "DEBUG if_else: scalar condition " ++ renderTruth condition ++ s!", single fill of {rows} rows"
  | conditionSpans spans rows path bySpans =>
    s!"DEBUG if_else: {spans} spans over {rows} rows" ++ renderPath path bySpans
  | conditionRows rows conditions =>
    s!"DEBUG case_when: row-wise over {rows} rows, {conditions} conditions"
  | conditionSegments segments runs rows path bySpans =>
    s!"DEBUG case_when: {segments} segments from {runs} condition runs over {rows} rows"
      ++ renderPath path bySpans
  | keptArguments kept arguments rows =>
    s!"DEBUG coalesce: kept {kept} of {arguments} arguments over {rows} rows"
  | validitySegments segments rows path bySpans =>
    s!"DEBUG coalesce: {segments} segments over {rows} rows" ++ renderPath path bySpans
  | indexGroups groups rows choices path bySpans =>
    s!"DEBUG choose: {groups} index groups over {rows} rows from {choices} choices"
      ++ renderPath path bySpans
  | reservation type rows hint =>
    "TRACE reserving output builder: dtype=" ++ type.name ++ s!", rows={rows}, size_hint={hint}"
  | chunks rows count size =>
    s!"DEBUG par_chunks: {rows} rows in {count} chunks of {size}"

end Event

/-- A computation's log and its outcome. -/
@[ext]
structure Logged (α : Type) where
  log : List Event
  outcome : Except Failure α

namespace Logged

variable {α β : Type}

def ofOutcome (x : Except Failure α) : Logged α := ⟨[], x⟩

def result (a : α) : Logged α := ofOutcome (.ok a)

def reject (e : Rejection) : Logged α := ofOutcome (.error (.rejected e))

/-- A step that may be rejected, nothing logged. -/
def check (x : Except Rejection α) : Logged α := ofOutcome (Failure.ofRejected x)

/-- A step that may break off, nothing logged. -/
def ofChecked (x : Checked α) : Logged α := ofOutcome x.lift

/-- One event. -/
def report (e : Event) : Logged Unit := ⟨[e], .ok ()⟩

/-- Go on from a result, with both logs in order. After a failure nothing follows. -/
def andThen (x : Logged α) (f : α → Logged β) : Logged β :=
  match x.outcome with
  | .ok a => ⟨x.log ++ (f a).log, (f a).outcome⟩
  | .error e => ⟨x.log, .error e⟩

instance : Monad Logged where
  pure := result
  bind := andThen

@[simp] theorem ofChecked_ok (a : α) : ofChecked (.ok a) = ofOutcome (.ok a) := rfl

@[simp] theorem ok_bind (a : α) (f : α → Logged β) : ofOutcome (.ok a) >>= f = f a := rfl

@[simp] theorem error_bind (e : Failure) (f : α → Logged β) :
    (ofOutcome (.error e) : Logged α) >>= f = ofOutcome (.error e) := rfl

@[simp] theorem report_bind (e : Event) (f : Unit → Logged β) :
    report e >>= f = ⟨e :: (f ()).log, (f ()).outcome⟩ := rfl

theorem outcome_bind (x : Logged α) (f : α → Logged β) :
    (x >>= f).outcome = x.outcome >>= fun a => (f a).outcome := by
  simp only [bind, andThen, Except.bind]
  cases x.outcome <;> rfl

theorem outcome_bind_of_ok {x : Logged α} {a : α} (h : x.outcome = .ok a) (f : α → Logged β) :
    (x >>= f).outcome = (f a).outcome := by
  rw [outcome_bind, h]
  rfl

theorem outcome_bind_of_error {x : Logged α} {e : Failure} (h : x.outcome = .error e)
    (f : α → Logged β) : (x >>= f).outcome = .error e := by
  rw [outcome_bind, h]
  rfl

/-- A sequence has a result exactly when its steps have. -/
theorem outcome_bind_eq_ok {x : Logged α} {f : α → Logged β} {b : β} :
    (x >>= f).outcome = .ok b ↔ ∃ a, x.outcome = .ok a ∧ (f a).outcome = .ok b := by
  simp only [bind, andThen]
  cases x.outcome <;> simp

end Logged

end Columnar
