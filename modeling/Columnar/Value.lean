import Columnar.Column.Basic

/-!
# Scalars, views and values

What a call takes for an argument: one value that repeats, or a part of a column.
-/

namespace Columnar

/-! ## Scalars

A scalar is one nullable value of a type, and stands for a column that repeats it as often as a call
needs. A typed null keeps its type; the **untyped null** fits any type. A list scalar states the
type of its elements beside the elements, and nothing keeps the two in agreement.
-/

/-- One value of some type, or a null. -/
inductive Scalar
  | null
  | fixed (t : FixedType) (value : Option t.Slot)
  | boolean (value : Option Bool)
  | text (t : TextType) (value : Option String)
  | list (child : DataType) (elements : Option Column)
  deriving DecidableEq

namespace Scalar

/-- The logical type, as stated. -/
def type : Scalar → DataType
  | null => .null
  | fixed t _ => .fixed t
  | boolean _ => .boolean
  | text t _ => .text t
  | list child _ => .list child

/-- The scalar is not null. -/
def isValid : Scalar → Bool
  | null => false
  | fixed _ v => v.isSome
  | boolean v => v.isSome
  | text _ v => v.isSome
  | list _ v => v.isSome

/-- The scalar is null, typed or not. -/
def isNull (s : Scalar) : Bool := !s.isValid

/-- The truth value of a valid boolean scalar. -/
def asBoolean? : Scalar → Option Bool
  | boolean v => v
  | _ => none

/-- The index that a valid integer scalar holds. -/
def asIndex? : Scalar → Option Int
  | fixed t v => v.bind t.toIndex?
  | _ => none

/-- The bytes that a valid text scalar takes, and zero for any other. -/
def byteLength : Scalar → Nat
  | text _ (some s) => (Utf8.encode s).length
  | _ => 0

/-- The same value, with floats compared as numbers. -/
def same : Scalar → Scalar → Bool
  | fixed t a, fixed u b =>
    if h : u = t then
      match a, (h ▸ b : Option t.Slot) with
      | some x, some y => t.sameNumber x y
      | none, none => true
      | _, _ => false
    else false
  | list child (some a), list child' (some b) => child == child' && a.same b
  | a, b => a == b

end Scalar

/-! ## Views

A view is a window of `len` rows of a column from `offset` on, without a copy. Rows of a view count
from its start.
-/

/-- A window of `len` rows of a column from `offset` on. -/
structure View where
  column : Column
  offset : Nat
  len : Nat
  in_bounds : offset + len ≤ column.length

namespace View

/-- The view of a whole column. -/
def whole (c : Column) : View := ⟨c, 0, c.length, by omega⟩

/-- The view of `len` rows from `offset` on, which the column must have. -/
def of (c : Column) (offset len : Nat) : Checked View :=
  if h : offset + len ≤ c.length then .ok ⟨c, offset, len, h⟩
  else .error (.ofStop (offset + len) (.viewWindow (offset + len) c.length))

variable (v : View)

/-- The row of the column after the view's last. -/
def stop : Nat := v.offset + v.len

/-- The logical type of the column. -/
def type : DataType := v.column.type

/-- The view of `len` of the view's rows from `offset` on. -/
def slice (offset len : Nat) : Checked View :=
  if h : offset + len ≤ v.len then
    .ok ⟨v.column, v.offset + offset, len, by have := v.in_bounds; omega⟩
  else .error (.ofStop (offset + len) .viewSlice)

/-- The rows of the view, as a column of their own. -/
def toColumn : Checked Column := v.column.slice v.offset v.len

/-- Row `i` of the view is null. -/
def isNull (i : Nat) : Checked Bool := do
  Checked.require (i < v.len) .viewIsNull
  v.column.isNull (v.offset + i)

/-- The window over the validity of the view's rows, absent when the column has no mask. -/
def validity : Option Window := v.column.validity.window v.offset v.len

/-- The number of null rows of the view. -/
def nullCount : Nat := v.validity.elim 0 Window.countZeros

/-- The same rows: the copies that the views stand for are the same. -/
def same (a b : View) : Checked Bool := do
  if a.len ≠ b.len then return false
  return (← a.toColumn).same (← b.toColumn)

end View

/-! ### Rows as values -/

namespace Column

/-- The elements of row `i` of a list column, as a view of the child, if the row is valid. -/
def listView (rows : ListRows) (child : Column) (i : Nat) : Checked (Option View) := do
  if ← rows.validity.isNull i then return none
  let (start, len) ← rows.offsets.place i
  return some (← View.of child start len)

/-- Row `i` as a scalar of the column's type. The elements of a list are copied. -/
def scalarAt : Column → Nat → Checked Scalar
  | fixed t c, i => return .fixed t (← c.get i)
  | boolean c, i => return .boolean (← c.get i)
  | text t c, i => return .text t (← c.get i)
  | list rows child, i => do
    match ← listView rows child i with
    | some elements => return .list child.type (some (← elements.toColumn))
    | none => return .list child.type none
  | null _, _ => .ok .null

end Column

/-- Row `i` of the view as a scalar. -/
def View.scalarAt (v : View) (i : Nat) : Checked Scalar := do
  Checked.require (i < v.len) .viewGet
  v.column.scalarAt (v.offset + i)

/-! ## Values

A **value** is an argument of a call: a view of a column, or a scalar that repeats over as many
rows as the call has.
-/

/-- An argument of a call. -/
inductive Value
  | column (view : View)
  | scalar (s : Scalar)

namespace Value

/-- The value of a whole column. -/
def ofColumn (c : Column) : Value := column (.whole c)

/-- The logical type, which is the null type for the untyped null. -/
def type : Value → DataType
  | column v => v.type
  | scalar s => s.type

/-- The number of rows of a column. A scalar has none of its own. -/
def length? : Value → Option Nat
  | column v => some v.len
  | scalar _ => none

/-- The value is a scalar. -/
def isScalar : Value → Bool
  | scalar _ => true
  | column _ => false

/-- The value has a type of its own: it is not the untyped null. -/
def isTyped : Value → Bool
  | scalar .null => false
  | _ => true

/-- Row `i` of the value is null. -/
def isNull : Value → Nat → Checked Bool
  | column v, i => v.isNull i
  | scalar s, _ => .ok s.isNull

/-- The number of null rows when a scalar repeats over `rows` rows. -/
def nullCount : Value → Nat → Nat
  | column v, _ => v.nullCount
  | scalar s, rows => if s.isNull then rows else 0

/-- The `len` rows from `offset` on. A scalar stays as it is. -/
def slice : Value → Nat → Nat → Checked Value
  | column v, offset, len => return column (← v.slice offset len)
  | scalar s, _, _ => .ok (scalar s)

/-- The same rows, or the same scalar. -/
def same : Value → Value → Checked Bool
  | column a, column b => a.same b
  | scalar a, scalar b => .ok (a.same b)
  | _, _ => .ok false

end Value

end Columnar
