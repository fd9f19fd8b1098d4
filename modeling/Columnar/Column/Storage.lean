import Columnar.Bits.Bitmask
import Columnar.DataType
import Columnar.Failure

/-!
# Storages of columns

A column of one value per row keeps its values in one of three ways, beside the **validity** of its
rows: in slots, in bits, or in bytes behind **offsets**. Lists have offsets as well.
-/

namespace Columnar

/-! ## Validity

Which rows of a column are valid: a mask with a set bit per valid row, or **no mask when every row
is valid**. A mask without a clear bit is allowed, but no operation that makes a column leaves one.
-/

/-- The validity of a column's rows, absent when all are valid. -/
abbrev Validity := Option Bitmask

namespace Validity

/-- Row `i` is valid. A row past the mask is not. -/
def bit (v : Validity) (i : Nat) : Bool := v.elim true fun m => m.bit i

/-- Row `i` of a column with this validity is null. -/
def isNull (v : Validity) (i : Nat) : Checked Bool :=
  match v with
  | none => .ok false
  | some m => (m.get i).map (!·)

def nullCount (v : Validity) : Nat := v.elim 0 Bitmask.countZeros

/-- The window over `len` rows from `offset` on, absent when all are valid. -/
def window (v : Validity) (offset len : Nat) : Option Window := v.map (⟨·, offset, len⟩)

/-- The validity of `len` rows from `offset` on, without a mask when no row of them is null. -/
def slice (v : Validity) (offset len : Nat) : Checked Validity :=
  match v with
  | none => .ok none
  | some m =>
    if (Window.mk m offset len).countOnes = len then .ok none
    else (m.slice offset len).map some

/-- A mask must cover the rows one to one. -/
def check (v : Validity) (rows : Nat) : Checked Unit :=
  match v with
  | none => .ok ()
  | some m => Checked.require (m.len = rows) (.maskLength m.len rows)

/-- A mask is kept only if it has a clear bit. -/
def ofMask (m : Bitmask) : Validity := if m.allSet then none else some m

/-- The validity of rows pushed one by one. -/
def ofList (rows : List Bool) : Validity := ofMask (rows.foldl Bitmask.push .empty)

def pushValid (v : Validity) : Validity := v.map (·.push true)

/-- One more null row after `rows` rows. The first null makes the mask. -/
def pushNull (v : Validity) (rows : Nat) : Validity :=
  some ((v.getD (.filled rows true)).push false)

end Validity

/-! ## Offsets

Rows of variable length are ranges of one buffer. A column of `n` such rows keeps `n + 1`
**offsets**: row `i` runs from offset `i` to offset `i + 1`. The first offset need not be zero.
Offsets are words of 32 or 64 bits, and their sums and differences are those of words.
-/

/-- The offsets of rows of variable length. -/
abbrev Offsets (w : Nat) := List (BitVec w)

namespace Offsets

variable {w : Nat}

/-- The greatest offset of a width. -/
def greatest (w : Nat) : Nat := (BitVec.allOnes w).toNat

def rows (offsets : Offsets w) : Nat := offsets.length - 1

/-- Offset `i`, zero past the end. -/
def offsetAt (offsets : Offsets w) (i : Nat) : BitVec w := offsets.getD i 0

/-- Offset `i`, which must be there. -/
def read (offsets : Offsets w) (i : Nat) : Checked (BitVec w) :=
  match offsets[i]? with
  | some o => .ok o
  | none => .error .outOfRange

/-- The start and the end of the buffer part that `len` rows from `first` on take. -/
def extent (offsets : Offsets w) (first len : Nat) : Checked (BitVec w × BitVec w) := do
  return (← offsets.read first, ← offsets.read (first + len))

def range (offsets : Offsets w) (i : Nat) : Checked (Nat × Nat) := do
  let (start, stop) ← offsets.extent i 1
  return (start.toNat, stop.toNat)

/-- Where row `i` starts and how long it is. Its range must not run backwards. -/
def place (offsets : Offsets w) (i : Nat) : Checked (Nat × Nat) := do
  let (start, stop) ← offsets.range i
  Checked.require (start ≤ stop) .outOfRange
  return (start, stop - start)

/-- The size of the buffer part that `len` rows from `first` on take. -/
def payload (offsets : Offsets w) (first len : Nat) : Nat :=
  (offsets.offsetAt (first + len)).toNat - (offsets.offsetAt first).toNat

/-- The last offset, where the next row starts. -/
def last (offsets : Offsets w) : BitVec w := offsets.getLastD 0

/-- The offsets of `len` rows from `first` on, moved so that the first becomes zero. -/
def slice (offsets : Offsets w) (first len : Nat) : Offsets w :=
  ((offsets.drop first).take (len + 1)).map (· - offsets.offsetAt first)

/-- The offsets at which `len` rows from `first` on end when they are put after the offset `base`.
-/
def moved (offsets : Offsets w) (first len : Nat) (base : BitVec w) : Offsets w :=
  ((offsets.drop (first + 1)).take len).map fun o => base + (o - offsets.offsetAt first)

end Offsets

/-- The part `[start, stop)` of a buffer, which must be there. -/
def bufferPart {α : Type} (buffer : List α) (start stop : Nat) : Checked (List α) := do
  Checked.require (start ≤ stop ∧ stop ≤ buffer.length) .outOfRange
  return (buffer.drop start).take (stop - start)

/-! ## Fixed-width columns

One slot per row, whether the row is valid or not. The slot of a null row keeps whatever was written
there.
-/

/-- A column of fixed-width slots. -/
@[ext]
structure FixedColumn (t : FixedType) where
  slots : List t.Slot
  validity : Validity
  deriving DecidableEq

namespace FixedColumn

variable {t : FixedType}

def length (c : FixedColumn t) : Nat := c.slots.length

/-- No rows, with a mask if one is asked for. -/
def emptyWith (t : FixedType) (masked : Bool) : FixedColumn t :=
  ⟨[], if masked then some .empty else none⟩

def empty (t : FixedType) : FixedColumn t := emptyWith t false

/-- No rows yet, with room for `rows` of them, and with a mask if one is asked for. -/
def withRoom (t : FixedType) (rows : Nat) (masked : Bool) : Checked (FixedColumn t) := do
  Checked.requireBytes (rows * (t.width / 8))
  return emptyWith t masked

/-- A column from its slots and a mask that must cover them. -/
def ofParts (slots : List t.Slot) (validity : Validity) : Checked (FixedColumn t) := do
  validity.check slots.length
  return ⟨slots, validity⟩

/-- A column of valid rows. -/
def ofList (slots : List t.Slot) : FixedColumn t := ⟨slots, none⟩

/-- A column of nullable rows. The slots of null rows are zero. -/
def ofRows (rows : List (Option t.Slot)) : FixedColumn t :=
  ⟨rows.map (·.getD 0), .ofList (rows.map Option.isSome)⟩

/-- The slot of row `i`, null or not. -/
def slotAt (c : FixedColumn t) (i : Nat) : Checked t.Slot :=
  match c.slots[i]? with
  | some x => .ok x
  | none => .error .outOfRange

/-- The slot of row `i` if the row is valid. -/
def get (c : FixedColumn t) (i : Nat) : Checked (Option t.Slot) := do
  if ← c.validity.isNull i then return none else return some (← c.slotAt i)

def push (c : FixedColumn t) (x : t.Slot) : FixedColumn t :=
  ⟨c.slots ++ [x], c.validity.pushValid⟩

/-- Append a null row over a zero slot. -/
def pushNull (c : FixedColumn t) : FixedColumn t :=
  ⟨c.slots ++ [0], c.validity.pushNull c.length⟩

def slice (c : FixedColumn t) (offset len : Nat) : Checked (FixedColumn t) := do
  Checked.requireRange offset len c.length (.slice (.ofFixed t))
  return ⟨(c.slots.drop offset).take len, ← c.validity.slice offset len⟩

/-- The same rows: the slots hold the same numbers, and the masks are the same. -/
def same (a b : FixedColumn t) : Bool :=
  a.slots.length == b.slots.length && (a.slots.zipWith t.sameNumber b.slots).all id
    && a.validity == b.validity

end FixedColumn

/-! ## Boolean columns

One bit per row, packed like a mask. The bit of a null row keeps whatever was written there.
-/

/-- A column of packed booleans. -/
@[ext]
structure BooleanColumn where
  values : Bitmask
  validity : Validity
  deriving DecidableEq

namespace BooleanColumn

def length (c : BooleanColumn) : Nat := c.values.len

/-- No rows, with a mask if one is asked for. -/
def emptyWith (masked : Bool) : BooleanColumn := ⟨.empty, if masked then some .empty else none⟩

def empty : BooleanColumn := emptyWith false

/-- No rows yet, with room for `rows` of them, and with a mask if one is asked for. -/
def withRoom (rows : Nat) (masked : Bool) : Checked BooleanColumn := do
  Bitmask.requireBits rows
  return emptyWith masked

/-- A column from its bits and a mask that must cover them. -/
def ofParts (values : Bitmask) (validity : Validity) : Checked BooleanColumn := do
  validity.check values.len
  return ⟨values, validity⟩

/-- A column of valid rows. -/
def ofList (values : List Bool) : BooleanColumn := ⟨.ofList values, none⟩

/-- A column of nullable rows. The bits of null rows are clear. -/
def ofRows (rows : List (Option Bool)) : BooleanColumn :=
  ⟨(rows.map (·.getD false)).foldl Bitmask.push .empty, .ofList (rows.map Option.isSome)⟩

/-- The bit of row `i`, null or not. -/
def valueAt (c : BooleanColumn) (i : Nat) : Checked Bool := c.values.get i

/-- The bit of row `i` if the row is valid. -/
def get (c : BooleanColumn) (i : Nat) : Checked (Option Bool) := do
  Checked.require (i < c.length) .booleanGet
  if ← c.validity.isNull i then return none else return some (← c.valueAt i)

def push (c : BooleanColumn) (x : Bool) : BooleanColumn :=
  ⟨c.values.push x, c.validity.pushValid⟩

/-- Append a null row over a clear bit. -/
def pushNull (c : BooleanColumn) : BooleanColumn :=
  ⟨c.values.push false, c.validity.pushNull c.length⟩

/-- The window over the bits of `len` rows from `offset` on. -/
def window (c : BooleanColumn) (offset len : Nat) : Window := ⟨c.values, offset, len⟩

def slice (c : BooleanColumn) (offset len : Nat) : Checked BooleanColumn := do
  Checked.requireRange offset len c.length (.slice .boolean)
  return ⟨← c.values.slice offset len, ← c.validity.slice offset len⟩

end BooleanColumn

/-! ## Text columns

The bytes of all rows in one buffer, behind offsets. A null row normally spans no bytes, but any
span is allowed. Rows are read as UTF-8 only on demand, so a row may hold any bytes until then.
-/

/-- A column of byte strings. -/
@[ext]
structure TextColumn (t : TextType) where
  offsets : Offsets t.offsetWidth
  bytes : Bytes
  validity : Validity
  deriving DecidableEq

namespace TextColumn

variable {t : TextType}

def length (c : TextColumn t) : Nat := c.offsets.rows

/-- No rows, with a mask if one is asked for. -/
def emptyWith (t : TextType) (masked : Bool) : TextColumn t :=
  ⟨[0], [], if masked then some .empty else none⟩

def empty (t : TextType) : TextColumn t := emptyWith t false

/-- No rows yet, with room for the offsets of `rows` of them and for `bytes` bytes of text, and with
a mask if one is asked for. -/
def withRoom (t : TextType) (rows bytes : Nat) (masked : Bool) : Checked (TextColumn t) := do
  Checked.requireBytes ((rows + 1) * (t.offsetWidth / 8))
  Checked.requireBytes bytes
  return emptyWith t masked

/-- A column from its parts. The mask must cover the rows. -/
def ofParts (offsets : Offsets t.offsetWidth) (bytes : Bytes) (validity : Validity) :
    Checked (TextColumn t) := do
  validity.check offsets.rows
  return ⟨offsets, bytes, validity⟩

/-- Append a valid row, unless the bytes would pass the greatest offset. -/
def tryPush (c : TextColumn t) (text : Bytes) : Except Rejection (TextColumn t) :=
  let stop := c.bytes.length + text.length
  if stop ≤ Offsets.greatest t.offsetWidth then
    .ok ⟨c.offsets ++ [BitVec.ofNat _ stop], c.bytes ++ text, c.validity.pushValid⟩
  else .error (.allocationFailure (.offsetOverflow stop))

/-- Append a valid row. The bytes must not pass the greatest offset. -/
def push (c : TextColumn t) (text : Bytes) : Checked (TextColumn t) := .insist (c.tryPush text)

/-- Append a null row of no bytes. -/
def pushNull (c : TextColumn t) : TextColumn t :=
  ⟨c.offsets ++ [c.offsets.last], c.bytes, c.validity.pushNull c.length⟩

def pushRow (c : TextColumn t) (row : Option Bytes) : Checked (TextColumn t) :=
  match row with
  | some text => c.push text
  | none => .ok c.pushNull

/-- A column of valid rows. Room for all of them is asked for first. -/
def ofList (rows : List Bytes) : Checked (TextColumn t) := do
  rows.foldlM push (← withRoom t rows.length rows.flatten.length false)

/-- A column of nullable rows. Room for all of them is asked for first. -/
def ofRows (rows : List (Option Bytes)) : Checked (TextColumn t) := do
  let texts := rows.map (·.getD [])
  rows.foldlM pushRow (← withRoom t rows.length texts.flatten.length false)

/-- The bytes of row `i`, null or not. -/
def bytesAt (c : TextColumn t) (i : Nat) : Checked Bytes := do
  let (start, stop) ← c.offsets.range i
  bufferPart c.bytes start stop

/-- The text of row `i`, null or not. It must be UTF-8. -/
def textAt (c : TextColumn t) (i : Nat) : Checked String := do
  match Utf8.decode (← c.bytesAt i) with
  | .ok s => return s
  | .error cause => throw (.invalidText i cause)

/-- The text of row `i` if the row is valid. -/
def get (c : TextColumn t) (i : Nat) : Checked (Option String) := do
  if ← c.validity.isNull i then return none else return some (← c.textAt i)

/-- A copy of `len` rows from `offset` on, with the bytes of these rows only. -/
def slice (c : TextColumn t) (offset len : Nat) : Checked (TextColumn t) := do
  Checked.requireRange offset len c.length (.slice .string)
  let (start, stop) ← c.offsets.extent offset len
  let bytes ← bufferPart c.bytes start.toNat stop.toNat
  return ⟨c.offsets.slice offset len, bytes, ← c.validity.slice offset len⟩

end TextColumn

end Columnar
