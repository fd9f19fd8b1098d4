import Columnar.Column.Storage

/-!
# Columns

A **column** is a row of nullable values of one logical type, in one of four storages: fixed-width
slots, packed booleans, bytes behind offsets, and lists, which are ranges of a child column behind
offsets. There are three empty columns of the null type besides, which differ in name only.

A column is physical. Two columns with the same values may differ under their null rows, in spare
buffer, in where their offsets start, and in whether a mask without nulls is there.
-/

namespace Columnar

/-- The rows of a list column, without the child that they are ranges of. -/
@[ext]
structure ListRows where
  offsets : Offsets listOffsetWidth
  validity : Validity
  deriving DecidableEq

namespace ListRows

def length (r : ListRows) : Nat := r.offsets.rows

def empty : ListRows := ⟨[0], none⟩

end ListRows

/-- The columns of the null type. -/
inductive NullKind
  | untyped
  | numeric
  | text
  deriving DecidableEq

/-- A column of nullable values. -/
inductive Column
  | fixed (t : FixedType) (c : FixedColumn t)
  | boolean (c : BooleanColumn)
  | text (t : TextType) (c : TextColumn t)
  | list (rows : ListRows) (child : Column)
  | null (kind : NullKind)
  deriving DecidableEq

namespace Column

def type : Column → DataType
  | fixed t _ => .fixed t
  | boolean _ => .boolean
  | text t _ => .text t
  | list _ child => .list child.type
  | null _ => .null

def length : Column → Nat
  | fixed _ c => c.length
  | boolean c => c.length
  | text _ c => c.length
  | list rows _ => rows.length
  | null _ => 0

def validity : Column → Validity
  | fixed _ c => c.validity
  | boolean c => c.validity
  | text _ c => c.validity
  | list rows _ => rows.validity
  | null _ => none

def nullCount (c : Column) : Nat := c.validity.nullCount

def isNull (c : Column) (i : Nat) : Checked Bool := c.validity.isNull i

/-- The column is the one that an untyped null would have. -/
def isUntyped : Column → Bool
  | null .untyped => true
  | _ => false

/-- The column without rows of a type. -/
def empty : DataType → Column
  | .null => null .untyped
  | .boolean => boolean .empty
  | .fixed t => fixed t (.empty t)
  | .text t => text t (.empty t)
  | .list child => list .empty (empty child)

/-! ## Lists -/

/-- A list column from its parts. There is a first offset, the last one is within the child, and the
mask covers the rows. -/
def ofLists (rows : ListRows) (child : Column) : Checked Column := do
  Checked.require (rows.offsets ≠ []) .noListOffset
  Checked.require (rows.offsets.last.toNat ≤ child.length) .listOffsets
  rows.validity.check rows.length
  return list rows child

/-- The offsets of lists of the given lengths, one after the other. Each is the running total cut to
the width of an offset. -/
def runningOffsets (total : Nat) : List Nat → Offsets listOffsetWidth
  | [] => [BitVec.ofNat _ total]
  | n :: rest => BitVec.ofNat _ total :: runningOffsets (total + n) rest

/-- A list column whose rows have the given lengths, one after the other over the child. An absent
length is a null row of no elements. -/
def ofLengths (child : Column) (lengths : List (Option Nat)) : Checked Column :=
  ofLists ⟨runningOffsets 0 (lengths.map (·.getD 0)), .ofList (lengths.map Option.isSome)⟩ child

/-! ## Copies -/

/-- A copy of `len` rows from `offset` on. It holds the bytes and the child elements of these rows
only, its offsets start at zero, and it has a mask only if one of its rows is null. -/
def slice : Column → Nat → Nat → Checked Column
  | fixed t c, offset, len => return fixed t (← c.slice offset len)
  | boolean c, offset, len => return boolean (← c.slice offset len)
  | text t c, offset, len => return text t (← c.slice offset len)
  | list rows child, offset, len => do
    Checked.requireRange offset len rows.length (.slice .list)
    let (start, stop) ← rows.offsets.extent offset len
    let part ← child.slice start.toNat (stop - start).toNat
    return list ⟨rows.offsets.slice offset len, ← rows.validity.slice offset len⟩ part
  | null kind, _, _ => .ok (null kind)

theorem type_slice {c d : Column} {offset len : Nat} (h : c.slice offset len = .ok d) :
    d.type = c.type := by
  induction c generalizing offset len d with
  | list rows child ih =>
    simp only [slice, bind_eq_ok, pure, Except.pure, Except.ok.injEq] at h
    obtain ⟨_, _, _, _, part, hpart, _, _, rfl⟩ := h
    simp only [type, ih hpart]
  | null kind =>
    cases h
    rfl
  | fixed | boolean | text =>
    simp only [slice, bind_eq_ok, pure, Except.pure, Except.ok.injEq] at h
    obtain ⟨-, -, rfl⟩ := h
    rfl

/-! ## Equality -/

/-- The same buffers, with floats compared as numbers. -/
def same : Column → Column → Bool
  | fixed t a, fixed u b => if h : u = t then a.same (h ▸ b) else false
  | boolean a, boolean b => a == b
  | text t a, text u b => if h : u = t then a == h ▸ b else false
  | list rows child, list rows' child' => rows == rows' && same child child'
  | null kind, null kind' => kind == kind'
  | _, _ => false

/-! ## Access by type -/

/-- The boolean column, if the column is one. -/
def asBoolean : Column → Checked BooleanColumn
  | boolean c => .ok c
  | c => .error (.unexpected .boolean c.type)

/-- The rows and the child of a list column, if the column is one. -/
def asList : Column → Checked (ListRows × Column)
  | list rows child => .ok (rows, child)
  | c => .error (.unexpected .list c.type)

/-- The column is numeric, the empty numeric column included. -/
def asNumeric : Column → Checked Column
  | fixed t c => .ok (fixed t c)
  | null .numeric => .ok (null .numeric)
  | c => .error (.unexpected .numeric c.type)

/-- The column is text, the empty text column included. -/
def asText : Column → Checked Column
  | text t c => .ok (text t c)
  | null .text => .ok (null .text)
  | c => .error (.unexpected .text c.type)

/-- The slots of a given fixed-width type, if the column is numeric and has that type. -/
def asFixed (c : Column) (t : FixedType) : Checked (FixedColumn t) := do
  match ← c.asNumeric with
  | fixed u slots =>
    if h : u = t then return h ▸ slots else throw (.unexpected (.type (.fixed t)) (.fixed u))
  | other => throw (.unexpected (.type (.fixed t)) other.type)

/-- The rows of a given text type, if the column is text and has that type. -/
def asTextOf (c : Column) (t : TextType) : Checked (TextColumn t) := do
  match ← c.asText with
  | text u rows =>
    if h : u = t then return h ▸ rows else throw (.unexpected (.type (.text t)) (.text u))
  | other => throw (.unexpected (.type (.text t)) other.type)

/-- The text of row `i` of a text column if the row is valid. -/
def getText (c : Column) (i : Nat) : Checked (Option String) := do
  match ← c.asText with
  | text _ rows => rows.get i
  | _ => return none

end Column

end Columnar
