import Columnar.Failure
import Columnar.Plan
import Columnar.Row
import Columnar.Value

/-!
# Selections

The four ways of making a column from rows of others, and what they have in common: one order of
checks, one way of planning, and one meaning. A selection can also be made chunk by chunk.
-/

namespace Columnar

/-! ## Argument checks

What a call checks before it reserves any output: the selector's type, one type for all values, and
one length for all columns. The checks look at types and lengths only, never at rows.
-/

namespace Arguments

/-- The length that the columns share. Scalars have any length, and one row where there is no
column. -/
def commonLength (operation : Operation) (args : List Value) : Except Rejection Nat :=
  match args.filterMap Value.length? with
  | [] => .ok 1
  | expected :: others =>
    match others.find? (· ≠ expected) with
    | some found => .error (.lengthMismatch operation expected found)
    | none => .ok expected

/-- The type that the typed values share. There is no promotion, and the untyped null fits any
type. -/
def commonType (operation : Operation) (values : List Value) : Except Rejection DataType :=
  match (values.filter Value.isTyped).map Value.type with
  | [] => .error (.typeMismatch operation .typedArgument none)
  | expected :: others =>
    match others.find? (· ≠ expected) with
    | some found => .error (.typeMismatch operation (.type expected) (some found))
    | none => .ok expected

/-- A condition is a boolean column, a boolean scalar, or the untyped null. -/
def checkCondition (operation : Operation) (value : Value) : Except Rejection Unit :=
  if value.isTyped ∧ value.type ≠ .boolean then
    .error (.typeMismatch operation (.type .boolean) (some value.type))
  else .ok ()

/-- The first argument that is no condition rejects the call. -/
def checkConditions (operation : Operation) : List Value → Except Rejection Unit
  | [] => .ok ()
  | value :: rest => do
    checkCondition operation value
    checkConditions operation rest

/-- An index is an integer column, an integer scalar, or the untyped null. -/
def checkIndex (operation : Operation) (value : Value) : Except Rejection Unit :=
  if value.isTyped ∧ !value.type.isInteger then
    .error (.typeMismatch operation .integer (some value.type))
  else .ok ()

end Arguments

/-! ## Choosing between two values

A row comes from `left` where the condition is true and from `right` where it is false, and is null
where the condition is null. Nulls of the chosen value carry through.
-/

namespace IfElse

/-- The number of the value on the side of an outcome. -/
def side : Truth → Option Nat
  | .yes => some 0
  | .no => some 1
  | .null => none

/-- The spans of the runs of a condition. -/
def spans (runs : List Run) : List Span :=
  Segment.merge (runs.map fun r => ⟨r.start, r.len, side r.value⟩)

/-- The side of row `i`. -/
def source (condition : Value) (i : Nat) : Checked (Option Nat) :=
  return side (.ofOption (← condition.readTruth i))

/-- The plan over `len` rows. A scalar condition makes one span of all rows on any path. -/
def plan (condition left right : Value) (len : Nat) (path : Path) : Logged Plan := do
  match condition with
  | .scalar s =>
    .report (.scalarCondition s.asBoolean? len)
    return .spans [left, right] (spans (Run.constant len (.ofOption s.asBoolean?)))
  | .column _ =>
    let spans := spans (← .ofChecked (condition.truthRuns len))
    let bySpans := path.useSpans spans.length len (left.isScalar && right.isScalar)
    .report (.conditionSpans spans.length len path bySpans)
    return .of bySpans [left, right] spans (source condition)

end IfElse

/-! ## Choosing by the first true condition

A row comes from the value whose condition is the first true one. One value more than there are
conditions is the default for rows without a true condition, which are null otherwise. A null
condition does not choose and does not stop the search.
-/

namespace CaseWhen

/-- There is a condition, and a value for each and perhaps one more. -/
def checkArity (conditions values : List Value) : Except Rejection Unit :=
  if conditions.isEmpty then .error (.invalidArguments .noCondition)
  else if values.length = conditions.length ∨ values.length = conditions.length + 1 then .ok ()
  else .error (.invalidArguments (.valueCount conditions.length values.length))

/-- The number of the default value, if there is one. -/
def otherwise (conditions values : List Value) : Option Nat :=
  if conditions.length < values.length then some conditions.length else none

/-- The source of row `i`: the first condition that is true there, the first of the list being
number `k`, or `fallback`. -/
def sourceFrom (fallback : Option Nat) (i k : Nat) : List Value → Checked (Option Nat)
  | [] => .ok fallback
  | condition :: rest => do
    if (← condition.readTruth i) = some true then return some k
    else sourceFrom fallback i (k + 1) rest

/-- The source of row `i`. -/
def source (conditions values : List Value) (i : Nat) : Checked (Option Nat) :=
  sourceFrom (otherwise conditions values) i 0 conditions

/-- The plan over `len` rows. The row path reads no runs. -/
def plan (conditions values : List Value) (len : Nat) (path : Path) : Logged Plan := do
  if path = .rows then
    .report (.conditionRows len conditions.length)
    return .rows values (source conditions values)
  else
    let runs ← .ofChecked (conditions.mapM fun c => c.truthRuns len)
    let spans ← .ofChecked (Span.ofRuns runs len (otherwise conditions values))
    let bySpans := path.useSpans spans.length len (values.all Value.isScalar)
    .report (.conditionSegments spans.length runs.flatten.length len path bySpans)
    return .of bySpans values spans (source conditions values)

end CaseWhen

/-! ## Choosing the first value that is not null

A row comes from the first argument that is not null there, and is null where all are. The plan
drops the arguments that cannot matter: one that is null throughout can never be chosen, and nothing
after one without nulls can be.
-/

namespace Coalesce

/-- There is an argument. -/
def checkArity (args : List Value) : Except Rejection Unit :=
  if args.isEmpty then .error (.invalidArguments .noArgument) else .ok ()

/-- The arguments that can still supply a row, in order. -/
def relevant : List Value → List Value
  | [] => []
  | .scalar s :: rest => if s.isNull then relevant rest else [.scalar s]
  | .column v :: rest =>
    if v.nullCount = 0 then [.column v]
    else if v.nullCount < v.len then .column v :: relevant rest
    else relevant rest

/-- The source of row `i`: the first argument that is not null there, the first of the list being
number `k`. -/
def sourceFrom (i k : Nat) : List Value → Checked (Option Nat)
  | [] => .ok none
  | value :: rest => do
    if ← value.isNull i then sourceFrom i (k + 1) rest else return some k

/-- The source of row `i`. -/
def source (args : List Value) (i : Nat) : Checked (Option Nat) := sourceFrom i 0 args

/-- The plan over `len` rows. The row path reads no runs. -/
def plan (args : List Value) (len : Nat) (path : Path) : Logged Plan := do
  let kept := relevant args
  .report (.keptArguments kept.length args.length len)
  if path = .rows then return .rows kept (source kept)
  else
    let spans ← .ofChecked (Span.ofRuns (kept.map fun v => v.validRuns len) len none)
    let bySpans := path.useSpans spans.length len (kept.all Value.isScalar)
    .report (.validitySegments spans.length len path bySpans)
    return .of bySpans kept spans (source kept)

end Coalesce

/-! ## Choosing by index

A row comes from the choice that its index names, and is null where the index is null. One valid
index that names no choice rejects the whole call. The indices are checked before anything is
reserved, and a scalar index even when there is no row to take.
-/

namespace Choose

/-- There is a choice. -/
def checkArity (choices : List Value) : Except Rejection Unit :=
  if choices.isEmpty then .error (.invalidArguments .noChoice) else .ok ()

/-- The choice that a valid index at row `row` names. -/
def named (choices row : Nat) (index : Int) : Except Rejection Nat :=
  if 0 ≤ index ∧ index < choices then .ok index.toNat
  else .error (.indexOutOfBounds row index choices)

/-- The choice of row `row` of an index column that is read from `offset` on, absent under a null.
-/
def checkedSource {t : FixedType} (c : FixedColumn t) (offset choices row : Nat) :
    Except Failure (Option Nat) := do
  match ← (c.get (offset + row)).lift with
  | none => return none
  | some slot =>
    let index := (t.toIndex? slot).getD FixedType.maxIndex
    return some (← Failure.ofRejected (named choices row index))

/-- The span plan of `len` rows of an index column from the row `row` on: groups of equal indices.
The first bad index rejects it. -/
def groups {t : FixedType} (c : FixedColumn t) (offset choices : Nat) (row : Nat) :
    Nat → Except Failure (List Span)
  | 0 => .ok []
  | len + 1 => do
    let source ← checkedSource c offset choices row
    return Segment.cons ⟨row, 1, source⟩ (← groups c offset choices (row + 1) len)

/-- The span plan of an index argument over `len` rows. -/
def spans (indices : Value) (len choices : Nat) : Except Failure (List Span) :=
  match indices with
  | .scalar s =>
    match s.asIndex? with
    | none => .ok (Segment.merge [⟨0, len, none⟩])
    | some index => do
      let k ← Failure.ofRejected (named choices 0 index)
      return Segment.merge [⟨0, len, some k⟩]
  | .column v =>
    match v.column with
    | .fixed t c =>
      if t.isInteger then groups c v.offset choices 0 len
      else .error (.rejected (.typeMismatch .choose .integer (some (.fixed t))))
    | other => .error (.rejected (.typeMismatch .choose .integer (some other.type)))

/-- The choice that row `i` of an index argument names, once the indices have been checked. -/
def source (indices : Value) (i : Nat) : Checked (Option Nat) :=
  match indices with
  | .scalar s => .ok (s.asIndex?.map Int.toNat)
  | .column v => return (← v.scalarAt i).asIndex?.map Int.toNat

/-- The plan over `len` rows. -/
def plan (indices : Value) (choices : List Value) (len : Nat) (path : Path) : Logged Plan := do
  let spans ← .ofOutcome (spans indices len choices.length)
  let bySpans := path.useSpans spans.length len (choices.all Value.isScalar)
  .report (.indexGroups spans.length len choices.length path bySpans)
  return .of bySpans choices spans (source indices)

end Choose

/-! ## Partitioned calls

`chunked` cuts a range of rows into chunks, calls a function for each, and joins the results in row
order. The chunks share nothing, so they may run in any order, or at once. The first failure is the
failure of the whole. A range that is one chunk is the function's own business: its result is
returned as it is.
-/

namespace Partition

/-- The columns one after the other, all of the first one's type. Their rows must add up to `len`.
-/
def join (parts : List Column) (len : Nat) : Logged Column :=
  match parts with
  | [] => .result (.null .untyped)
  | first :: _ => do
    let payload := sumSat (parts.map fun part => (Value.ofColumn part).payload 0 part.length)
    let b ← Builder.reserve first.type len payload
    let add := fun (b : Builder) (part : Column) => b.copy part 0 part.length
    let b ← .ofOutcome (Attempt.forEach add parts b).toExcept
    if b.length = len then .ofChecked b.finish
    else .reject (.lengthMismatch .partition len b.length)

/-- The results of a function on all the pieces, in order. -/
def results (f : Nat → Nat → Logged Column) : List Piece → Logged (List Column)
  | [] => .result []
  | p :: rest => do
    let part ← f p.start p.len
    return part :: (← results f rest)

end Partition

/-- Call `f offset rows` for chunks of `size` rows of `[0, len)` and join the results. -/
def chunked (len size : Nat) (f : Nat → Nat → Logged Column) : Logged Column :=
  if size = 0 then .reject (.invalidArguments .zeroChunk)
  else if len ≤ size then f 0 len
  else do
    .report (.chunks len (pieceCount size len) size)
    Partition.join (← Partition.results f (pieces size len)) len

/-! ## Calls

A **call** is one of the four selections with its arguments. They share a shape: *selectors* decide,
row by row, which of the *values* supplies the row. A call is checked, then planned, then carried
out, and each selection has its own plan.

The checks come in one order: the number of arguments, the types of the selectors, the types of the
values, the lengths of all arguments. The first one that fails is the rejection, and none of them
looks at a row.
-/

/-- A selection with its arguments. -/
inductive Call
  | ifElse (condition left right : Value)
  | caseWhen (conditions values : List Value)
  | coalesce (args : List Value)
  | choose (indices : Value) (choices : List Value)

namespace Call

/-- The operation that the call names. -/
def operation : Call → Operation
  | ifElse .. => .ifElse
  | caseWhen .. => .caseWhen
  | coalesce _ => .coalesce
  | choose .. => .choose

/-- The arguments that decide and supply nothing. -/
def selectors : Call → List Value
  | ifElse condition _ _ => [condition]
  | caseWhen conditions _ => conditions
  | coalesce _ => []
  | choose indices _ => [indices]

/-- The arguments that supply rows. -/
def values : Call → List Value
  | ifElse _ left right => [left, right]
  | caseWhen _ values => values
  | coalesce args => args
  | choose _ choices => choices

/-- All the arguments, selectors first. -/
def arguments (c : Call) : List Value := c.selectors ++ c.values

/-! ### Checking -/

/-- There are arguments enough, and not too many. -/
def checkArity : Call → Except Rejection Unit
  | ifElse .. => .ok ()
  | caseWhen conditions values => CaseWhen.checkArity conditions values
  | coalesce args => Coalesce.checkArity args
  | choose _ choices => Choose.checkArity choices

/-- The selectors are indices for `choose` and conditions for the others. -/
def checkSelectors (c : Call) : Except Rejection Unit :=
  match c with
  | choose indices _ => Arguments.checkIndex c.operation indices
  | _ => Arguments.checkConditions c.operation c.selectors

/-- The type and the length of the output, unless an argument rejects the call. -/
def check (c : Call) : Except Rejection (DataType × Nat) := do
  c.checkArity
  c.checkSelectors
  let type ← Arguments.commonType c.operation c.values
  let len ← Arguments.commonLength c.operation c.arguments
  return (type, len)

/-! ### Making a call -/

/-- The plan of a checked call over `len` rows. -/
def plan (c : Call) (len : Nat) (path : Path) : Logged Plan :=
  match c with
  | ifElse condition left right => IfElse.plan condition left right len path
  | caseWhen conditions values => CaseWhen.plan conditions values len path
  | coalesce args => Coalesce.plan args len path
  | choose indices choices => Choose.plan indices choices len path

/-- Make a call. -/
def run (c : Call) (path : Path) : Logged Column := do
  let (type, len) ← .check c.check
  let plan ← c.plan len path
  plan.run type len

/-- The call on `len` rows from `offset` on of every argument. -/
def slice (c : Call) (offset len : Nat) : Checked Call :=
  let part := fun value : Value => value.slice offset len
  match c with
  | ifElse condition left right => return ifElse (← part condition) (← part left) (← part right)
  | caseWhen conditions values => return caseWhen (← conditions.mapM part) (← values.mapM part)
  | coalesce args => return coalesce (← args.mapM part)
  | choose indices choices => return choose (← part indices) (← choices.mapM part)

/-- Make a call in chunks of `size` rows and join the results. -/
def runChunked (c : Call) (path : Path) (len size : Nat) : Logged Column :=
  chunked len size fun offset rows => do
    let part ← .ofChecked (c.slice offset rows)
    part.run path

end Call

/-! ## What a call is to give

A call is to give, at each row, the row of the value that its selectors pick there, and a blank row
where they pick none. `pick` and `rows` say so on the rows of the arguments alone. They know nothing
of runs, spans, paths or builders.
-/

namespace Call

/-- The number of the value that supplies row `i`, if one does. -/
def pick : Call → Nat → Option Nat
  | ifElse condition _ _, i => (condition.truth? i).map fun b => if b then 0 else 1
  | caseWhen conditions values, i =>
    (conditions.findIdx? fun c => c.truth? i = some true).or
      (if conditions.length < values.length then some conditions.length else none)
  | coalesce args, i => args.findIdx? fun a => a.validAt i
  | choose indices _, i => (indices.index? i).map Int.toNat

/-- Row `i` of a call whose values have a given type. -/
def row (c : Call) (type : DataType) (i : Nat) : Row :=
  match (c.pick i).bind (c.values[·]?) with
  | some value => value.row type i
  | none => .blank type

/-- The rows of a call. -/
def rows (c : Call) (type : DataType) (len : Nat) : List Row := (List.range len).map (c.row type)

@[simp] theorem length_rows (c : Call) (type : DataType) (len : Nat) :
    (c.rows type len).length = len := by
  simp [rows]

end Call

end Columnar
