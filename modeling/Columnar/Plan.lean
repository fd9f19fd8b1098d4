import Columnar.Builder.Basic
import Columnar.Segment
import Columnar.Value

/-!
# Span plans

A call reduces its selector to a plan: which argument supplies each row of the output, if any does.
A **span plan** lists segments of rows with one source each, in order and without gaps. Neighbouring
segments of one source are one segment.

`Span.ofRuns` makes the plan of several conditions from their runs. At each row the first condition
that is true wins; false and null both let the next one be asked. A segment ends where the first run
of those that were asked ends, so the work is bounded by the runs and not by the rows.
-/

namespace Columnar

/-- Rows with one source, the number of the argument that supplies them, or null rows. -/
abbrev Span := Segment (Option Nat)

/-! ## Runs of arguments -/

namespace Value

/-- The truth value of a boolean selector at row `i`. -/
def readTruth : Value → Nat → Checked (Option Bool)
  | column v, i => do (← v.column.asBoolean).get (v.offset + i)
  | scalar s, _ => .ok s.asBoolean?

/-- The runs of a boolean selector over `len` rows. -/
def truthRuns : Value → Nat → Checked (List Run)
  | column v, len => do
    let c ← v.column.asBoolean
    return Run.ofColumn (c.window v.offset len) (c.validity.window v.offset len)
  | scalar s, len => .ok (Run.constant len (.ofOption s.asBoolean?))

/-- The runs of a value's validity over `len` rows: true where the row is not null. -/
def validRuns : Value → Nat → List Run
  | column v, len => v.validity.elim (Run.constant len .yes) Run.ofBits
  | scalar s, len => Run.constant len (if s.isNull then .no else .yes)

end Value

/-! ## Merging runs -/

namespace Span

/-- What the conditions say about a row: the source, the row at which the earliest run of those
asked ends, and what is left of all the runs. -/
structure Verdict where
  source : Option Nat
  stop : Nat
  left : List (List Run)

/-- Ask the conditions in order about the row `row`, the first of them being number `k`. Each drops
its runs that ended before the row. The source is the first condition that is true, or `fallback`,
and its segment stops at `limit` at most. A condition without a run at the row is a fault. -/
def ask (row : Nat) (fallback : Option Nat) (k limit : Nat) : List (List Run) → Checked Verdict
  | [] => .ok ⟨fallback, limit, []⟩
  | runs :: others =>
    match runs.dropWhile (fun r => r.stop ≤ row) with
    | [] => .error .outOfRange
    | run :: later =>
      let stop := min limit run.stop
      if run.value = .yes then .ok ⟨some k, stop, (run :: later) :: others⟩
      else do
        let v ← ask row fallback (k + 1) stop others
        return ⟨v.source, v.stop, (run :: later) :: v.left⟩

/-- The plan of the rows from `row` up to `len`. Every segment takes a row at least, so as many
steps as there are rows to plan are enough. -/
def segments (fallback : Option Nat) (len : Nat) (steps row : Nat) (runs : List (List Run)) :
    Checked (List Span) :=
  match steps with
  | 0 => .ok []
  | steps + 1 =>
    if row < len then do
      let v ← ask row fallback 0 len runs
      let rest ← segments fallback len steps v.stop v.left
      return Segment.cons ⟨row, v.stop - row, v.source⟩ rest
    else .ok []

/-- The plan over `len` rows that takes each row from the first condition that is true, and from
`fallback` when none is. Each list of runs covers all the rows. -/
def ofRuns (runs : List (List Run)) (len : Nat) (fallback : Option Nat) : Checked (List Span) :=
  segments fallback len len 0 runs

end Span

/-! ## Carrying out a plan

A plan is carried out span by span or row by row, through one builder whose buffers are reserved
before the first row. The span plan reserves exactly what its spans hold. The row plan reserves all
that its arguments could supply, since it does not know its rows beforehand.
-/

/-- The text bytes or child elements of `len` rows of a value from `start` on, and zero for other
types. -/
def Value.payload (value : Value) (start len : Nat) : Nat :=
  if len = 0 then 0
  else
    match value with
    | column v =>
      match v.column with
      | .text _ c => c.offsets.payload (v.offset + start) len
      | .list rows _ => rows.offsets.payload (v.offset + start) len
      | _ => 0
    | scalar (.list _ (some elements)) => mulSat elements.length len
    | scalar s => mulSat s.byteLength len

/-- Where the rows of an output come from: the values that supply them, and for each row the number
of its value, if it has one. The numbers are known by spans, or found by asking row by row. -/
inductive Plan
  | spans (values : List Value) (spans : List Span)
  | rows (values : List Value) (source : Nat → Checked (Option Nat))

namespace Plan

/-- The span plan if spans are to be taken, and the row plan otherwise. -/
def of (bySpans : Bool) (values : List Value) (ss : List Span)
    (source : Nat → Checked (Option Nat)) : Plan :=
  if bySpans then spans values ss else rows values source

/-- The payload that a plan over `len` rows reserves. -/
def payload (plan : Plan) (len : Nat) : Nat :=
  match plan with
  | spans values ss =>
    sumSat (ss.filterMap fun s =>
      s.value.bind fun k => values[k]?.map fun value => value.payload s.start s.len)
  | rows values _ => sumSat (values.map fun value => value.payload 0 len)

/-- Append from the value that a source names, which must be there, or null rows without one. -/
def addFrom (values : List Value) (b : Builder) (source : Option Nat) (nulls : Nat)
    (add : Value → Attempt Builder) : Attempt Builder :=
  match source with
  | none => b.fillNull nulls
  | some k =>
    match values[k]? with
    | some value => add value
    | none => .failed b (.fault .outOfRange)

/-- Append the rows of one span. -/
def addSpan (values : List Value) (b : Builder) (s : Span) : Attempt Builder :=
  addFrom values b s.value s.len fun value => b.take value s.start s.len

def addRow (values : List Value) (source : Nat → Checked (Option Nat)) (b : Builder) (i : Nat) :
    Attempt Builder :=
  match source i with
  | .error f => .failed b (.fault f)
  | .ok k => addFrom values b k 1 fun value => b.takeRow value i

/-- Append all the rows of a plan over `len` rows. -/
def add (plan : Plan) (len : Nat) (b : Builder) : Attempt Builder :=
  match plan with
  | spans values ss => Attempt.forEach (addSpan values) ss b
  | rows values source => Attempt.forEach (addRow values source) (List.range len) b

/-- Carry out a plan over `len` rows of a type. -/
def run (plan : Plan) (type : DataType) (len : Nat) : Logged Column := do
  let b ← Builder.reserve type len (plan.payload len)
  let b ← .ofOutcome (plan.add len b).toExcept
  .ofChecked b.finish

end Plan

end Columnar
