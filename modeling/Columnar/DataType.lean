import Columnar.Text

/-!
# Logical types

The types of columns and scalars. A **fixed-width** type stores one slot of 32 or 64 bits per row,
a **text** type stores byte strings behind offsets of 32 or 64 bits, and a list type stores ranges
of a child column. The null type is that of an untyped null, which has no column form.
-/

namespace Columnar

/-- How the bits of a fixed-width slot are read. -/
inductive FixedType
  | int32
  | int64
  | uint32
  | uint64
  | float32
  | float64
  deriving DecidableEq

namespace FixedType

@[reducible] def width : FixedType → Nat
  | int32 | uint32 | float32 => 32
  | int64 | uint64 | float64 => 64

/-- The integer types, which `choose` takes as indices. -/
def isInteger : FixedType → Bool
  | int32 | int64 | uint32 | uint64 => true
  | float32 | float64 => false

def name : FixedType → String
  | int32 => "Int32"
  | int64 => "Int64"
  | uint32 => "UInt32"
  | uint64 => "UInt64"
  | float32 => "Float32"
  | float64 => "Float64"

end FixedType

/-- The two text types differ in the width of their offsets. -/
inductive TextType
  | string
  | largeString
  deriving DecidableEq

namespace TextType

@[reducible] def offsetWidth : TextType → Nat
  | string => 32
  | largeString => 64

def name : TextType → String
  | string => "String"
  | largeString => "LargeString"

end TextType

/-- Bits per list offset. -/
@[reducible] def listOffsetWidth : Nat := 32

/-- The logical type of a column, a scalar, or the result of a call. -/
inductive DataType
  | null
  | boolean
  | fixed (type : FixedType)
  | text (type : TextType)
  | list (child : DataType)
  deriving DecidableEq

namespace DataType

def isInteger : DataType → Bool
  | fixed t => t.isInteger
  | _ => false

/-- True for the fixed-width types, integers and floats. -/
def isNumeric : DataType → Bool
  | fixed _ => true
  | _ => false

/-- True for the text types. Lists do not count. -/
def isText : DataType → Bool
  | text _ => true
  | _ => false

/-- The name of the type, with the child's name in angle brackets for a list. -/
def name : DataType → String
  | null => "Null"
  | boolean => "Boolean"
  | fixed t => t.name
  | text t => t.name
  | list child => "List<" ++ child.name ++ ">"

/-- The type has a builder: no null type at its innermost level. -/
def Concrete : DataType → Prop
  | null => False
  | list child => child.Concrete
  | _ => True

instance decidableConcrete : (type : DataType) → Decidable type.Concrete
  | null => .isFalse id
  | list child => decidableConcrete child
  | boolean | fixed _ | text _ => .isTrue trivial

end DataType

/-! ## Fixed-width slots

A slot is the bit pattern of one row of a fixed-width column. Calls copy patterns and never look
inside; the type says how a pattern is read where it is compared, shown, or used as an index.
-/

namespace FixedType

/-- The pattern that a row stores. -/
abbrev Slot (t : FixedType) : Type := BitVec t.width

/-- The integer that a slot of an integer type holds. -/
def toInt? (t : FixedType) (slot : t.Slot) : Option Int :=
  match t with
  | int32 | int64 => some slot.toInt
  | uint32 | uint64 => some slot.toNat
  | float32 | float64 => none

/-- The greatest index. Unsigned slots above it count as it. -/
def maxIndex : Int := 0x7FFFFFFFFFFFFFFF

/-- The slot as an index, if its type is an integer type. -/
def toIndex? (t : FixedType) (slot : t.Slot) : Option Int := (t.toInt? slot).map (min · maxIndex)

/-- The slot that stores an integer, if the type is an integer type and has it. -/
def ofInt? (t : FixedType) (n : Int) : Option t.Slot :=
  let slot : t.Slot := BitVec.ofInt t.width n
  if t.toInt? slot = some n then some slot else none

/-- The slot's integer as a size of 64 bits, negative ones wrapping around. -/
def toSize? (t : FixedType) (slot : t.Slot) : Option Nat :=
  (t.toInt? slot).map fun n => (BitVec.ofInt 64 n).toNat

/-- The binary format of a float type. -/
def format? : FixedType → Option BinaryFormat
  | float32 => some .single
  | float64 => some .double
  | _ => none

/-- Two slots hold the same number. Patterns that are no number differ from everything. -/
def sameNumber (t : FixedType) (a b : t.Slot) : Bool :=
  match t.format? with
  | some f => f.sameNumber a.toNat b.toNat
  | none => a == b

/-- The slot's number, written out. -/
def render (t : FixedType) (slot : t.Slot) : String :=
  match t.toInt? slot, t.format? with
  | some n, _ => toString n
  | none, some f => f.render slot.toNat
  | none, none => ""

end FixedType

end Columnar
