import Columnar.DataType
import Columnar.Text

/-!
# Failures

A call gives a whole column or one **rejection**, never a part of a column. A rejection is an answer
to the caller. An operation that is handed what its caller promised not to hand it ends in a
**fault** instead, which is a bug of the caller. Both are causes here; `Rejection.message` and
`Fault.message` have their wording. A `Failure` is one or the other, and an `Attempt` is what a
change leaves behind that may end in one. The sizes that a machine can count, and the memory that it
can give, are told last.
-/

namespace Columnar

/-! ## Rejections -/

/-- The operation that rejects a call. -/
inductive Operation
  | ifElse
  | caseWhen
  | coalesce
  | choose
  | builder
  | partition
  deriving DecidableEq

namespace Operation

def name : Operation → String
  | ifElse => "if_else"
  | caseWhen => "case_when"
  | coalesce => "coalesce"
  | choose => "choose"
  | builder => "builder"
  | partition => "par_chunks"

end Operation

/-- What a type check asks for. -/
inductive Expectation
  | type (t : DataType)
  | integer
  | concrete
  | typedArgument
  deriving DecidableEq

namespace Expectation

def description : Expectation → String
  | type t => t.name
  | integer => "an integer type"
  | concrete => "a concrete type"
  | typedArgument => "at least one typed value argument"

end Expectation

/-- Why the memory for a buffer is refused. -/
inductive Refusal
  /-- More bytes than a buffer may have. -/
  | capacity
  /-- More bytes than there are. -/
  | memory
  deriving DecidableEq

namespace Refusal

def message : Refusal → String
  | capacity =>
    "memory allocation failed because the computed capacity exceeded the collection's maximum"
  | memory => "memory allocation failed because the memory allocator returned an error"

end Refusal

/-- The buffers that a builder reserves, counted in their elements. -/
inductive BufferKind
  | slots
  | textOffsets
  | textBytes
  | listOffsets
  deriving DecidableEq

namespace BufferKind

def name : BufferKind → String
  | slots => "primitive output"
  | textOffsets => "string offsets"
  | textBytes => "string bytes"
  | listOffsets => "list offsets"

end BufferKind

/-- Why an output buffer cannot be had. -/
inductive AllocationCause
  /-- The memory for a builder's buffer is refused. -/
  | buffer (kind : BufferKind) (count : Nat) (refusal : Refusal)
  /-- The memory for a mask is refused. -/
  | mask (bits : Nat) (refusal : Refusal)
  /-- The text output would pass its greatest offset. -/
  | textOverflow (bytes : Nat)
  /-- The list output would pass its greatest offset. -/
  | listOverflow (elements : Nat)
  /-- A text column would pass its greatest offset. -/
  | offsetOverflow (offset : Nat)
  deriving DecidableEq

namespace AllocationCause

def message : AllocationCause → String
  | buffer kind count refusal => kind.name ++ s!" for {count} elements: " ++ refusal.message
  | mask bits refusal => s!"bitmask of {bits} bits: " ++ refusal.message
  | textOverflow bytes => s!"string output of {bytes} bytes overflows its offset type"
  | listOverflow elements => s!"list output of {elements} child elements overflows u32 offsets"
  | offsetOverflow offset => s!"string offset {offset} overflows the offset type"

end AllocationCause

/-- What is wrong with an argument list as such. -/
inductive ArgumentCause
  | noCondition
  | valueCount (conditions values : Nat)
  | noArgument
  | noChoice
  | zeroChunk
  | untypedNull
  /-- A cause that a caller's own chunk function names. -/
  | stated (text : String)
  deriving DecidableEq

namespace ArgumentCause

def message : ArgumentCause → String
  | noCondition => "case_when requires at least one condition"
  | valueCount n values =>
    s!"case_when expects {n} or {n + 1} values for {n} conditions, got {values}"
  | noArgument => "coalesce requires at least one argument"
  | noChoice => "choose requires at least one choice"
  | zeroChunk => "par_chunks requires a non-zero chunk length"
  | untypedNull => "untyped null scalar cannot be materialised"
  | stated text => text

end ArgumentCause

/-- Why a call is rejected. -/
inductive Rejection
  /-- A type differs from what the operation expects. No type is found when no argument has one. -/
  | typeMismatch (operation : Operation) (expected : Expectation) (found : Option DataType)
  /-- Two column arguments have different lengths. -/
  | lengthMismatch (operation : Operation) (expected found : Nat)
  /-- A valid index names no choice. -/
  | indexOutOfBounds (row : Nat) (index : Int) (choices : Nat)
  /-- An output buffer cannot be had. -/
  | allocationFailure (cause : AllocationCause)
  /-- The argument list is malformed. -/
  | invalidArguments (cause : ArgumentCause)
  deriving DecidableEq

namespace Rejection

/-- The rejection is about memory or offset range, and not about the arguments. -/
def IsAllocation : Rejection → Prop
  | allocationFailure _ => True
  | _ => False

instance : DecidablePred IsAllocation := fun e => by
  cases e <;> unfold IsAllocation <;> infer_instance

def message : Rejection → String
  | typeMismatch operation expected found =>
    "Type mismatch in '" ++ operation.name ++ "': expected " ++ expected.description
      ++ ", found " ++ (found.elim "null" DataType.name) ++ "."
  | lengthMismatch operation expected found =>
    "Length mismatch in '" ++ operation.name ++ s!"': expected {expected} rows, found {found}."
  | indexOutOfBounds row index choices =>
    s!"Index out of bounds at row {row}: index {index} is not in [0, {choices})."
  | allocationFailure cause => "Allocation failure: " ++ cause.message
  | invalidArguments cause => "Invalid arguments: " ++ cause.message

end Rejection

/-! ## Faults

A `Checked` operation may end in a fault and in nothing else.
-/

/-- The storage of a column, as faults and displays name it. -/
inductive Storage
  | integer
  | float
  | boolean
  | string
  | list
  deriving DecidableEq

namespace Storage

def name : Storage → String
  | integer => "IntegerArray"
  | float => "FloatArray"
  | boolean => "BooleanArray"
  | string => "StringArray"
  | list => "ListArray"

/-- The storage of a fixed-width type. -/
def ofFixed : FixedType → Storage
  | .float32 | .float64 => float
  | _ => integer

end Storage

/-- What an accessor wanted to find in a column. -/
inductive Wanted
  | numeric
  | text
  | boolean
  | list
  | type (t : DataType)
  deriving DecidableEq

namespace Wanted

def description : Wanted → String
  | numeric => "a numeric array"
  | text => "a text array"
  | boolean => "a boolean array"
  | list => "a list array"
  | type t => t.name

end Wanted

/-- The promise that a caller broke. -/
inductive Fault
  /-- An index or a range outside a buffer. -/
  | outOfRange
  /-- A buffer of more bytes than there are. -/
  | tooLarge
  /-- A mask over fewer bytes than its bits take. -/
  | maskBuffer (bytes bits : Nat)
  /-- A bit past a mask's length. -/
  | maskGet (index length : Nat)
  /-- A slice past a mask's length. -/
  | maskSlice
  /-- A window past a mask's length. -/
  | maskWindow
  /-- A mask that does not cover the rows one to one. -/
  | maskLength (mask rows : Nat)
  /-- A row past a boolean column's length. -/
  | booleanGet
  /-- A slice past a column's length. -/
  | slice (storage : Storage)
  /-- A list column without its first offset. -/
  | noListOffset
  /-- A list column whose last offset lies past its child. -/
  | listOffsets
  /-- A view that ends past its column. -/
  | viewWindow (stop rows : Nat)
  /-- A view's slice past the view's length. -/
  | viewSlice
  /-- A row past a view's length, asked for its validity. -/
  | viewIsNull
  /-- A row past a view's length, asked for its value. -/
  | viewGet
  /-- A column of another storage than the accessor's. -/
  | unexpected (wanted : Wanted) (found : DataType)
  /-- A text row that is not UTF-8. -/
  | invalidText (row : Nat) (cause : InvalidUtf8)
  /-- What the caller promised would not be rejected, and was. -/
  | refused (e : Rejection)
  deriving DecidableEq

namespace Fault

/-- The wording of a fault. An index outside a buffer and a buffer too large have none of their
own. -/
def message : Fault → Option String
  | outOfRange | tooLarge => none
  | maskBuffer bytes bits => some s!"Bitmask::new: buffer of {bytes} bytes cannot hold {bits} bits"
  | maskGet index length => some s!"Bitmask::get out of bounds (idx={index}, len={length})"
  | maskSlice => some "Bitmask::slice_clone out of bounds"
  | maskWindow => some "Bitmask::window out of bounds"
  | maskLength mask rows =>
    some s!"Validation Error: Null mask length ({mask}) does not match data length ({rows})"
  | booleanGet => some "BooleanArray::get index out of bounds"
  | slice storage => some (storage.name ++ "::slice_clone out of bounds")
  | noListOffset => some "ListArray requires at least one offset"
  | listOffsets => some "ListArray offsets exceed child length"
  | viewWindow stop rows =>
    some s!"ArrayView: window out of bounds (offset + len = {stop}, array.len = {rows})"
  | viewSlice => some "ArrayView::slice: out of bounds"
  | viewIsNull => some "ArrayView::is_null: out of bounds"
  | viewGet => some "ArrayView::get_scalar: out of bounds"
  | unexpected wanted found => some ("expected " ++ wanted.description ++ ", found " ++ found.name)
  | invalidText row cause =>
    some (s!"StringArray holds invalid UTF-8 at {row}: " ++ cause.message)
  | refused e => some e.message

end Fault

/-- A sequence succeeds exactly when its steps do. -/
theorem bind_eq_ok {ε α β : Type} {x : Except ε α} {f : α → Except ε β} {b : β} :
    x >>= f = .ok b ↔ ∃ a, x = .ok a ∧ f a = .ok b := by
  cases x <;> simp [bind, Except.bind]

theorem ok_bind {ε α β : Type} (a : α) (f : α → Except ε β) : Except.ok a >>= f = f a := rfl

/-- An operation that may break off on a broken precondition. -/
abbrev Checked (α : Type) := Except Fault α

namespace Checked

/-- Go on if a promise holds. -/
def require (p : Prop) [Decidable p] (f : Fault) : Checked Unit :=
  if p then .ok () else .error f

@[simp] theorem require_of {p : Prop} [Decidable p] {f : Fault} (h : p) :
    require p f = .ok () := by
  simp [require, h]

@[simp] theorem require_eq_ok {p : Prop} [Decidable p] {f : Fault} {u : Unit} :
    require p f = .ok u ↔ p := by
  unfold require
  split <;> simp_all

/-- A step that the caller promises is not rejected. -/
def insist {α : Type} : Except Rejection α → Checked α
  | .ok a => .ok a
  | .error e => .error (.refused e)

end Checked

/-! ## Failures -/

/-- How an operation can end without a result. -/
inductive Failure
  | rejected (e : Rejection)
  | fault (f : Fault)
  deriving DecidableEq

namespace Failure

/-- A step that may be rejected, among steps that may break off as well. -/
def ofRejected {α : Type} : Except Rejection α → Except Failure α
  | .ok a => .ok a
  | .error e => .error (.rejected e)

/-- The failure where the caller promises that there is no rejection. -/
def insist : Failure → Failure
  | rejected e => fault (.refused e)
  | fault f => fault f

/-- The failure is a rejection about memory or offset range. -/
def IsAllocation : Failure → Prop
  | rejected e => e.IsAllocation
  | fault _ => False

instance : DecidablePred IsAllocation := fun f => by
  cases f <;> unfold IsAllocation <;> infer_instance

end Failure

/-- A step that may break off, among steps that may be rejected as well. -/
def Checked.lift {α : Type} : Checked α → Except Failure α
  | .ok a => .ok a
  | .error f => .error (.fault f)

/-!
## Attempts

A builder is changed in place, and a change may be rejected half-way. An **attempt** is the state
that a change leaves behind, together with why it broke off, if it did. So what a rejected change
leaves behind can be spoken of.
-/

/-- The state after a change, and why the change broke off, if it did. -/
@[ext]
structure Attempt (σ : Type) where
  state : σ
  failure : Option Failure

namespace Attempt

variable {σ τ : Type}

/-- A change that went through. -/
def done (s : σ) : Attempt σ := ⟨s, none⟩

/-- A change that broke off and left `s`. -/
def failed (s : σ) (f : Failure) : Attempt σ := ⟨s, some f⟩

/-- A change of `s` that either goes through or leaves `s` as it was. -/
def of (s : σ) (x : Except Failure σ) : Attempt σ :=
  match x with
  | .ok t => done t
  | .error f => failed s f

/-- Go on with another change if the first went through. -/
def andThen (a : Attempt σ) (f : σ → Attempt σ) : Attempt σ :=
  match a.failure with
  | none => f a.state
  | some _ => a

/-- The same attempt, seen as a change of a larger state. -/
def map (f : σ → τ) (a : Attempt σ) : Attempt τ := ⟨f a.state, a.failure⟩

/-- The same attempt at a change that is promised not to be rejected. -/
def insist (a : Attempt σ) : Attempt σ := ⟨a.state, a.failure.map Failure.insist⟩

/-- Make a change `n` times over. -/
def iterate (f : σ → Attempt σ) : Nat → σ → Attempt σ
  | 0, s => done s
  | n + 1, s => (f s).andThen (iterate f n)

/-- Make the changes of a list one after the other. -/
def forEach {α : Type} (f : σ → α → Attempt σ) : List α → σ → Attempt σ
  | [], s => done s
  | a :: rest, s => (f s a).andThen (forEach f rest)

/-- The state if the change went through. -/
def toExcept (a : Attempt σ) : Except Failure σ :=
  match a.failure with
  | none => .ok a.state
  | some f => .error f

@[simp] theorem state_done (s : σ) : (done s).state = s := rfl

@[simp] theorem failure_done (s : σ) : (done s).failure = none := rfl

@[simp] theorem done_andThen (s : σ) (f : σ → Attempt σ) : (done s).andThen f = f s := rfl

@[simp] theorem state_map (f : σ → τ) (a : Attempt σ) : (a.map f).state = f a.state := rfl

@[simp] theorem failure_map (f : σ → τ) (a : Attempt σ) : (a.map f).failure = a.failure := rfl

theorem state_of_failure {s : σ} {x : Except Failure σ} (h : (of s x).failure ≠ none) :
    (of s x).state = s := by
  cases x with
  | ok t => exact absurd rfl h
  | error f => rfl

end Attempt

/-!
## Sizes and reservations

Sizes are natural numbers here, while a machine counts them in words of 64 bits. So a range has an
end only up to the greatest word, and **size hints** are sums and products that stop at the greatest
word instead of wrapping. A **reservation** of more bytes than a buffer may have, or than there are,
is refused. Growth without a reservation has no one to refuse it, and is a fault instead.
-/

/-- The greatest size. -/
def maxSize : Nat := 0xFFFFFFFFFFFFFFFF

/-! ### Ranges -/

/-- The fault of a range that ends at `stop`, where `f` is the fault of one that ends too far. A
range whose end is past the greatest size lies outside every buffer, whatever it is a range of. -/
def Fault.ofStop (stop : Nat) (f : Fault) : Fault := if stop ≤ maxSize then f else .outOfRange

namespace Checked

/-- The `len` positions from `start` on must be among the first `limit`. -/
def requireRange (start len limit : Nat) (f : Fault) : Checked Unit :=
  require (start + len ≤ limit) (.ofStop (start + len) f)

@[simp] theorem requireRange_eq_ok {start len limit : Nat} {f : Fault} {u : Unit} :
    requireRange start len limit f = .ok u ↔ start + len ≤ limit :=
  require_eq_ok

end Checked

/-! ### Hints -/

/-- A sum that stops at the greatest size. -/
def addSat (a b : Nat) : Nat := min (a + b) maxSize

/-- A product that stops at the greatest size. -/
def mulSat (a b : Nat) : Nat := min (a * b) maxSize

/-- The sum of many sizes. -/
def sumSat (sizes : List Nat) : Nat := sizes.foldl addSat 0

/-! ### Reservations -/

/-- The most bytes that a buffer may have. -/
def maxBufferBytes : Nat := 0x7FFFFFFFFFFFFFFF

/-- The most bytes that a process can address. -/
def addressableBytes : Nat := 0x800000000000

/-- Ask for a number of bytes. The answer is why they are refused, or nothing. -/
def allocate (bytes : Nat) : Option Refusal :=
  if maxBufferBytes < bytes then some .capacity
  else if addressableBytes < bytes then some .memory
  else none

theorem allocate_eq_none {bytes : Nat} : allocate bytes = none ↔ bytes ≤ addressableBytes := by
  have hlt : addressableBytes < maxBufferBytes := by decide
  rw [allocate]
  split
  · simp
    omega
  · split <;> simp <;> omega

/-- Ask for `count` elements of `width` bits. -/
def allocateBuffer (kind : BufferKind) (count width : Nat) : Except Rejection Unit :=
  match allocate (count * (width / 8)) with
  | none => .ok ()
  | some refusal => .error (.allocationFailure (.buffer kind count refusal))

/-- A buffer of `bytes` bytes must be to be had. -/
def Checked.requireBytes (bytes : Nat) : Checked Unit := require (allocate bytes = none) .tooLarge

theorem requireBytes_eq_ok {bytes : Nat} (h : bytes ≤ addressableBytes) :
    Checked.requireBytes bytes = .ok () :=
  Checked.require_of (allocate_eq_none.2 h)

theorem requireBytes_eq_error {bytes : Nat} (h : addressableBytes < bytes) :
    Checked.requireBytes bytes = .error .tooLarge := by
  have hno : allocate bytes ≠ none := fun hnone => Nat.not_le_of_lt h (allocate_eq_none.1 hnone)
  rw [Checked.requireBytes, Checked.require, if_neg hno]

end Columnar
