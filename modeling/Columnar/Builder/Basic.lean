import Columnar.Builder.Storage
import Columnar.Log
import Columnar.Value

/-!
# Builders

A builder grows the column that a call returns. Rows are **copied** from a column, several at once
or one at a time, or **filled** with a scalar or with nulls. Copied rows keep what they store under
a null. Nulls that are made here store the default of their type: a zero slot, a clear bit, no
bytes, no child elements.

Lists copy their child elements into a builder of their own, so nothing is shared with a source.
-/

namespace Columnar

/-- The rows of a growing list column, without the child that they are ranges of. -/
@[ext]
structure ListBuilder where
  offsets : Offsets listOffsetWidth
  validity : ValidityBuilder
  deriving DecidableEq

namespace ListBuilder

def empty : ListBuilder := ⟨[0], .empty⟩

def length (b : ListBuilder) : Nat := b.offsets.rows

/-- Room for `extra` more child elements: they must stay within the greatest offset. -/
def checkRoom (b : ListBuilder) (extra : Nat) : Except Rejection Unit :=
  let stop := addSat b.offsets.last.toNat extra
  if stop ≤ Offsets.greatest listOffsetWidth then .ok ()
  else .error (.allocationFailure (.listOverflow stop))

/-- Append the ranges and the validity of `len` rows from `offset` on. -/
def copy (b : ListBuilder) (rows : ListRows) (offset len : Nat) : ListBuilder :=
  ⟨b.offsets ++ rows.offsets.moved offset len b.offsets.last,
    b.validity.copy (rows.validity.window offset len) len⟩

/-- Append one row of `n` child elements. -/
def add (b : ListBuilder) (n : Nat) (valid : Bool) : ListBuilder :=
  ⟨b.offsets ++ [b.offsets.last + BitVec.ofNat _ n], b.validity.add valid⟩

/-- Append `n` null rows of no child elements. There must be memory for their offsets. -/
def fillNull (b : ListBuilder) (n : Nat) : Checked ListBuilder := do
  Checked.requireBytes ((b.offsets.length + n) * (listOffsetWidth / 8))
  return ⟨b.offsets ++ List.replicate n b.offsets.last, b.validity.addNull n⟩

/-- The rows of the list column. -/
def finish (b : ListBuilder) : ListRows := ⟨b.offsets, b.validity.finish⟩

end ListBuilder

/-- A growing column. -/
inductive Builder
  | fixed (t : FixedType) (b : FixedBuilder t)
  | boolean (b : BooleanBuilder)
  | text (t : TextType) (b : TextBuilder t)
  | list (rows : ListBuilder) (child : Builder)
  deriving DecidableEq

namespace Builder

/-- Reserve output of `rows` rows. The hint is the number of text bytes or child elements. The child
of a list is reserved after the list's offsets, for as many rows as the hint says. -/
def reserve (type : DataType) (rows hint : Nat) : Logged Builder := do
  .report (.reservation type rows hint)
  match type with
  | .fixed t => return fixed t (← .check (FixedBuilder.reserve t rows))
  | .boolean => return boolean (← .check (BooleanBuilder.reserve rows))
  | .text t => return text t (← .check (TextBuilder.reserve t rows hint))
  | .list child =>
    .check (allocateBuffer .listOffsets (rows + 1) listOffsetWidth)
    return list .empty (← reserve child hint 0)
  | .null => .reject (.typeMismatch .builder .concrete (some .null))

/-- The logical type of the output. -/
def type : Builder → DataType
  | fixed t _ => .fixed t
  | boolean _ => .boolean
  | text t _ => .text t
  | list _ child => .list child.type

def length : Builder → Nat
  | fixed _ b => b.length
  | boolean b => b.length
  | text _ b => b.length
  | list rows _ => rows.length

/-- Reject rows of another type. -/
def mismatch (b : Builder) (found : DataType) : Attempt Builder :=
  .failed b (.rejected (.typeMismatch .builder (.type b.type) (some found)))

/-! ## Copies -/

/-- Copy `len` rows of a column from `offset` on. No rows of the untyped null column fit any type.
-/
def copy : Builder → Column → Nat → Nat → Attempt Builder
  | fixed t b, .fixed u c, offset, len =>
    if h : u = t then .of (fixed t b) ((b.copy (h ▸ c) offset len).lift.map (fixed t))
    else mismatch (fixed t b) (.fixed u)
  | boolean b, .boolean c, offset, len => .done (boolean (b.copy c offset len))
  | text t b, .text u c, offset, len =>
    if h : u = t then .of (text t b) ((b.copy (h ▸ c) offset len).map (text t))
    else mismatch (text t b) (.text u)
  | list rows child, .list source elements, offset, len =>
    if len = 0 then .done (list rows child)
    else
      match source.offsets.extent offset len with
      | .error f => .failed (list rows child) (.fault f)
      | .ok (start, stop) =>
        match rows.checkRoom (stop - start).toNat with
        | .error e => .failed (list rows child) (.rejected e)
        | .ok _ =>
          match child.copy elements start.toNat (stop - start).toNat with
          | ⟨child, none⟩ => .done (list (rows.copy source offset len) child)
          | ⟨child, some f⟩ => .failed (list rows child) f
  | b, c, _, len => if c.isUntyped ∧ len = 0 then .done b else b.mismatch c.type

/-- Append one list row: `n` elements of a column from `start` on. -/
def addList (rows : ListBuilder) (child : Builder) (elements : Column) (start n : Nat)
    (valid : Bool) : Attempt Builder :=
  match rows.checkRoom n with
  | .error e => .failed (list rows child) (.rejected e)
  | .ok _ =>
    match child.copy elements start n with
    | ⟨child, none⟩ => .done (list (rows.add n valid) child)
    | ⟨child, some f⟩ => .failed (list rows child) f

/-- Copy one row of a column. -/
def copyRow : Builder → Column → Nat → Attempt Builder
  | fixed t b, .fixed u c, i =>
    if h : u = t then .of (fixed t b) ((b.copyRow (h ▸ c) i).lift.map (fixed t))
    else mismatch (fixed t b) (.fixed u)
  | boolean b, .boolean c, i => .of (boolean b) ((b.copyRow c i).lift.map boolean)
  | text t b, .text u c, i =>
    if h : u = t then .of (text t b) ((b.copyRow (h ▸ c) i).map (text t))
    else mismatch (text t b) (.text u)
  | list rows child, .list source elements, i =>
    match source.offsets.place i, source.validity.isNull i with
    | .ok (start, n), .ok null => addList rows child elements start n !null
    | .error f, _ => .failed (list rows child) (.fault f)
    | _, .error f => .failed (list rows child) (.fault f)
  | b, c, _ => b.mismatch c.type

/-! ## Fills -/

/-- Append `n` null rows. -/
def fillNull (b : Builder) (n : Nat) : Attempt Builder :=
  .of b <| Checked.lift <|
    match b with
    | fixed t b => (b.fillNull n).map (fixed t)
    | boolean b => (b.fillNull n).map boolean
    | text t b => (b.fillNull n).map (text t)
    | list rows child => (rows.fillNull n).map (list · child)

/-- Append a whole column as one list row. -/
def addColumn : Builder → Column → Attempt Builder
  | list rows child, elements => addList rows child elements 0 elements.length true
  | b, elements => b.mismatch (.list elements.type)

/-- Append `n` copies of a list. All their elements must fit; then they are made one by one. -/
def fillList (rows : ListBuilder) (child : Builder) (elements : Column) (n : Nat) :
    Attempt Builder :=
  match rows.checkRoom (mulSat elements.length n) with
  | .error e => .failed (list rows child) (.rejected e)
  | .ok _ => Attempt.iterate (fun b => b.addColumn elements) n (list rows child)

/-- Append `n` copies of a scalar. The untyped null fits any type. -/
def fill : Builder → Scalar → Nat → Attempt Builder
  | b, .null, n => b.fillNull n
  | fixed t b, .fixed u v, n =>
    if h : u = t then .of (fixed t b) ((b.fill (h ▸ v) n).lift.map (fixed t))
    else mismatch (fixed t b) (.fixed u)
  | boolean b, .boolean v, n => .of (boolean b) ((b.fill v n).lift.map boolean)
  | text t b, .text u v, n =>
    if u = t then (b.fill (v.map Utf8.encode) n).map (text t) else mismatch (text t b) (.text u)
  | list rows child, .list _ v, n =>
    match v with
    | some elements => fillList rows child elements n
    | none => fillNull (list rows child) n
  | b, s, _ => b.mismatch s.type

/-! ## Values -/

/-- Append `len` rows of a value from `start` on. A scalar repeats. -/
def take (b : Builder) (value : Value) (start len : Nat) : Attempt Builder :=
  match value with
  | .column v => b.copy v.column (v.offset + start) len
  | .scalar s => b.fill s len

/-- Append row `i` of a value. -/
def takeRow (b : Builder) (value : Value) (i : Nat) : Attempt Builder :=
  match value with
  | .column v => b.copyRow v.column (v.offset + i)
  | .scalar s => b.fill s 1

/-- The column. -/
def finish : Builder → Checked Column
  | fixed t b => return .fixed t (← b.finish)
  | boolean b => return .boolean (← b.finish)
  | text t b => return .text t (← b.finish)
  | list rows child => do Column.ofLists rows.finish (← child.finish)

end Builder

/-- A column that repeats a scalar `rows` times. The untyped null has no column form. -/
def Scalar.toColumn (s : Scalar) (rows : Nat) : Logged Column :=
  if s = .null then .reject (.invalidArguments .untypedNull)
  else do
    let b ← Builder.reserve s.type rows (mulSat s.byteLength rows)
    let b ← .ofOutcome (b.fill s rows).toExcept
    .ofChecked b.finish

end Columnar
