import Columnar.Value

/-!
# Rows

A column is many buffers; its meaning is a list of **rows**. A row is what is stored at one place
together with its validity, null or not, and the row of a list column holds the rows of its
elements. Two columns of one type with the same rows may still differ in their buffers, in what no
row reads.

A scalar is a row that repeats. A null scalar, like every null that an operation makes by itself, is
the **blank** row of its type: the default is stored under it.
-/

namespace Columnar

/-- What is stored at one place of a column, and its validity. -/
inductive Row
  | fixed (t : FixedType) (valid : Bool) (slot : t.Slot)
  | boolean (valid value : Bool)
  | text (valid : Bool) (bytes : Bytes)
  | list (valid : Bool) (elements : List Row)
  | untyped

namespace Row

/-- The row is not null. -/
def valid : Row → Bool
  | fixed _ v _ => v
  | boolean v _ => v
  | text v _ => v
  | list v _ => v
  | untyped => false

/-- The null row of a type over the type's default: a zero slot, a clear bit, no bytes, no
elements. -/
def blank : DataType → Row
  | .null => untyped
  | .boolean => boolean false false
  | .fixed t => fixed t false 0
  | .text _ => text false []
  | .list _ => list false []

@[simp] theorem valid_blank (type : DataType) : (blank type).valid = false := by
  cases type <;> rfl

end Row

namespace Offsets

/-- The part of a buffer that row `i` spans. -/
def part {w : Nat} {α : Type} (offsets : Offsets w) (buffer : List α) (i : Nat) : List α :=
  (buffer.drop (offsets.offsetAt i).toNat).take (offsets.payload i 1)

end Offsets

namespace Column

/-- Row `i` of a column. -/
def row : Column → Nat → Row
  | fixed t c, i => .fixed t (c.validity.bit i) (c.slots.getD i 0)
  | boolean c, i => .boolean (c.validity.bit i) (c.values.bit i)
  | text _ c, i => .text (c.validity.bit i) (c.offsets.part c.bytes i)
  | list r child, i =>
    .list (r.validity.bit i) (r.offsets.part ((List.range child.length).map (row child)) i)
  | null _, _ => .untyped

/-- The rows of a column. -/
def rows (c : Column) : List Row := (List.range c.length).map c.row

@[simp] theorem length_rows (c : Column) : c.rows.length = c.length := by
  simp [rows]

theorem valid_row {c : Column} (h : ∀ kind, c ≠ null kind) (i : Nat) :
    (c.row i).valid = c.validity.bit i := by
  cases c with
  | null kind => exact absurd rfl (h kind)
  | fixed | boolean | text | list => rfl

end Column

namespace View

/-- Row `i` of a view. -/
def row (v : View) (i : Nat) : Row := v.column.row (v.offset + i)

/-- The rows of a view. -/
def rows (v : View) : List Row := (List.range v.len).map v.row

end View

namespace Scalar

/-- The row that a scalar stands for where rows of `type` are wanted. -/
def row (type : DataType) : Scalar → Row
  | fixed t (some x) => .fixed t true x
  | boolean (some b) => .boolean true b
  | text _ (some s) => .text true (Utf8.encode s)
  | list _ (some c) => .list true c.rows
  | _ => .blank type

theorem valid_row (type : DataType) (s : Scalar) : (s.row type).valid = s.isValid := by
  cases s with
  | null => exact Row.valid_blank type
  | fixed _ v | boolean v | text _ v | list _ v =>
    cases v with
    | none => exact Row.valid_blank type
    | some x => rfl

end Scalar

namespace Value

/-- Row `i` of a value, where rows of `type` are wanted. -/
def row (type : DataType) : Value → Nat → Row
  | column v, i => v.row i
  | scalar s, _ => s.row type

/-- Row `i` of a value is not null. -/
def validAt (value : Value) (i : Nat) : Bool := (value.row .null i).valid

/-- The truth value at row `i` of a boolean value. -/
def truth? (value : Value) (i : Nat) : Option Bool :=
  match value.row .null i with
  | .boolean true b => some b
  | _ => none

/-- The index at row `i` of an integer value. -/
def index? (value : Value) (i : Nat) : Option Int :=
  match value.row .null i with
  | .fixed t true slot => t.toIndex? slot
  | _ => none

end Value

end Columnar
