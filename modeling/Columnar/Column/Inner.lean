import Columnar.Column.Storage
import Columnar.Failure

/-!
# Inner columns

The columns of one value per row, all but those of lists, are filled in place, row by row. They have
the same operations in three storages, so a **step** of filling one is data here, as is how one
comes about. A step may break off: rows that are not there cannot be copied, and text past the
greatest offset cannot be pushed. One way of pushing reports that, and one may go on from there. The
other promises that the text fits, and ends there in a fault.
-/

namespace Columnar

/-- The kinds of columns that have one value per row. -/
inductive InnerType
  | fixed (t : FixedType)
  | boolean
  | text (t : TextType)

namespace TextColumn

variable {t : TextType}

/-- Append a valid row in place, buffer by buffer. Whether the bytes fit is asked before any of them
is written. -/
def extend (c : TextColumn t) (text : Bytes) : Attempt (TextColumn t) :=
  let stop := c.bytes.length + text.length
  if stop ≤ Offsets.greatest t.offsetWidth then
    let c := { c with bytes := c.bytes ++ text }
    let c := { c with offsets := c.offsets ++ [BitVec.ofNat _ stop] }
    .done { c with validity := c.validity.pushValid }
  else .failed c (.rejected (.allocationFailure (.offsetOverflow stop)))

/-- Pushing in place is pushing all or nothing. -/
theorem extend_eq (c : TextColumn t) (text : Bytes) :
    c.extend text = Attempt.of c (Failure.ofRejected (c.tryPush text)) := by
  rw [extend, tryPush]
  dsimp only
  split <;> rfl

end TextColumn

namespace InnerType

/-- What a row holds. -/
@[reducible] def Item : InnerType → Type
  | fixed t => t.Slot
  | boolean => Bool
  | text _ => String

/-- The columns of a kind. -/
@[reducible] def Store : InnerType → Type
  | fixed t => FixedColumn t
  | boolean => BooleanColumn
  | text t => TextColumn t

/-- The storage, as faults name it. -/
def storage : InnerType → Storage
  | fixed t => .ofFixed t
  | boolean => .boolean
  | text _ => .string

/-! ## Operations -/

section Operations

variable {k : InnerType}

def length (c : k.Store) : Nat :=
  match k, c with
  | fixed _, c => FixedColumn.length c
  | boolean, c => BooleanColumn.length c
  | text _, c => TextColumn.length c

def validity (c : k.Store) : Validity :=
  match k, c with
  | fixed _, c => FixedColumn.validity c
  | boolean, c => BooleanColumn.validity c
  | text _, c => TextColumn.validity c

/-- The value of row `i` if the row is valid. -/
def get (c : k.Store) (i : Nat) : Checked (Option k.Item) :=
  match k, c with
  | fixed _, c => FixedColumn.get c i
  | boolean, c => BooleanColumn.get c i
  | text _, c => TextColumn.get c i

/-- Append a valid row, unless its text does not fit. -/
def tryPush (c : k.Store) (x : k.Item) : Attempt k.Store :=
  match k, c, x with
  | fixed _, c, x => .done (FixedColumn.push c x)
  | boolean, c, x => .done (BooleanColumn.push c x)
  | text _, c, x => TextColumn.extend c (Utf8.encode x)

/-- Append a valid row. Its text must fit. -/
def push (c : k.Store) (x : k.Item) : Attempt k.Store := (tryPush c x).insist

def pushNull (c : k.Store) : k.Store :=
  match k, c with
  | fixed _, c => FixedColumn.pushNull c
  | boolean, c => BooleanColumn.pushNull c
  | text _, c => TextColumn.pushNull c

def slice (c : k.Store) (offset len : Nat) : Checked k.Store :=
  match k, c with
  | fixed _, c => FixedColumn.slice c offset len
  | boolean, c => BooleanColumn.slice c offset len
  | text _, c => TextColumn.slice c offset len

/-- Row `i` stores the default of its type: zero, false, or no bytes. -/
def IsBlank (c : k.Store) (i : Nat) : Prop :=
  match k, c with
  | fixed _, c => FixedColumn.slotAt c i = .ok 0
  | boolean, c => BooleanColumn.valueAt c i = .ok false
  | text _, c => TextColumn.bytesAt c i = .ok []

end Operations

/-! ## Origins -/

/-- The room that a column can be asked to have: for a number of rows, and where there is text for a
number of bytes as well. -/
@[reducible] def Room : InnerType → Type
  | fixed _ | boolean => Nat
  | text _ => Nat × Nat

/-- How a column comes about. -/
inductive Origin (k : InnerType)
  /-- No rows. -/
  | empty
  /-- No rows, with room for some, and with a mask if one is asked for. -/
  | withRoom (room : k.Room) (masked : Bool)
  /-- Valid rows. -/
  | ofList (items : List k.Item)
  /-- Nullable rows. -/
  | ofRows (rows : List (Option k.Item))

namespace Origin

variable {k : InnerType}

/-- The column. There must be memory for its room, and its text must fit. -/
def make (o : k.Origin) : Checked k.Store :=
  match k, o with
  | fixed t, empty => .ok (FixedColumn.empty t)
  | fixed t, withRoom rows masked => FixedColumn.withRoom t rows masked
  | fixed _, ofList items => .ok (FixedColumn.ofList items)
  | fixed _, ofRows rows => .ok (FixedColumn.ofRows rows)
  | boolean, empty => .ok BooleanColumn.empty
  | boolean, withRoom rows masked => BooleanColumn.withRoom rows masked
  | boolean, ofList items => .ok (BooleanColumn.ofList items)
  | boolean, ofRows rows => .ok (BooleanColumn.ofRows rows)
  | text t, empty => .ok (TextColumn.empty t)
  | text t, withRoom (rows, bytes) masked => TextColumn.withRoom t rows bytes masked
  | text _, ofList items => TextColumn.ofList (items.map Utf8.encode)
  | text _, ofRows rows => TextColumn.ofRows (rows.map (Option.map Utf8.encode))

end Origin

/-! ## Steps -/

/-- A step of filling a column. -/
inductive Step (k : InnerType)
  /-- Append a valid row, or end there if its text does not fit. -/
  | push (x : k.Item)
  /-- Append a valid row, or go on without it if its text does not fit. -/
  | tryPush (x : k.Item)
  /-- Append a null row. -/
  | pushNull
  /-- Go on with a copy of some rows. -/
  | slice (offset len : Nat)

variable {k : InnerType}

def step (c : k.Store) : k.Step → Attempt k.Store
  | .push x => push c x
  | .tryPush x => .done (tryPush c x).state
  | .pushNull => .done (pushNull c)
  | .slice offset len => .of c (slice c offset len).lift

/-- Make steps one after the other. -/
def run (c : k.Store) (steps : List k.Step) : Attempt k.Store := .forEach step steps c

end InnerType

end Columnar
