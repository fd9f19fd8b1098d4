import Columnar.Column.Storage
import Columnar.Failure

/-!
# Storages of builders

Each storage of a column has a builder that grows it, and all of them grow their validity alike.
The length of a column is the length of what its builder was given, so a change adds to the values
and to the validity or to neither.
-/

namespace Columnar

/-! ## Building validity

The validity of a growing column. **No mask exists until the first null**; then one is made with a
set bit for every row so far. A column that ends up without nulls has no mask.
-/

/-- The validity of rows to come. -/
inductive Growth
  /-- One row. -/
  | row (valid : Bool)
  /-- Valid rows. -/
  | valid (n : Nat)
  /-- Null rows. -/
  | null (n : Nat)
  /-- The validity that a window holds. -/
  | copied (w : Window)
  /-- Rows of a source without a mask, all valid. -/
  | unmasked (n : Nat)

namespace Growth

def length : Growth → Nat
  | row _ => 1
  | valid n | null n | unmasked n => n
  | copied w => w.len

def nulls : Growth → Nat
  | row v => if v then 0 else 1
  | valid _ | unmasked _ => 0
  | null n => n
  | copied w => w.countZeros

end Growth

/-- The validity of the rows so far, and how many of them are null. -/
@[ext]
structure ValidityBuilder where
  mask : Option Bitmask
  len : Nat
  nulls : Nat
  deriving DecidableEq

namespace ValidityBuilder

def empty : ValidityBuilder := ⟨none, 0, 0⟩

/-- The mask, made now if there is none yet. -/
def made (v : ValidityBuilder) : Bitmask := v.mask.getD (Bitmask.empty.pushMany true v.len)

/-- Append `n` valid rows. -/
def addValid (v : ValidityBuilder) (n : Nat) : ValidityBuilder :=
  ⟨v.mask.map (·.pushMany true n), v.len + n, v.nulls⟩

/-- Append `n` null rows. -/
def addNull (v : ValidityBuilder) (n : Nat) : ValidityBuilder :=
  if n = 0 then v else ⟨some (v.made.pushMany false n), v.len + n, v.nulls + n⟩

/-- Append one row. -/
def add (v : ValidityBuilder) (valid : Bool) : ValidityBuilder :=
  if valid then v.addValid 1 else v.addNull 1

/-- Append `len` rows with the validity of a window, all valid without one. A window without nulls
leaves the mask unmade. -/
def copy (v : ValidityBuilder) (window : Option Window) (len : Nat) : ValidityBuilder :=
  match window with
  | none => v.addValid len
  | some w =>
    let nulls := len - w.countOnes
    if nulls = 0 then v.addValid len
    else ⟨some (v.made.append w), v.len + len, v.nulls + nulls⟩

/-- Append rows. -/
def extend (v : ValidityBuilder) : Growth → ValidityBuilder
  | .row valid => v.add valid
  | .valid n => v.addValid n
  | .null n => v.addNull n
  | .copied w => v.copy (some w) w.len
  | .unmasked n => v.copy none n

/-- Append rows, if there is memory for a mask of them all when one has to be there. The number of
rows must be a size. The first null makes the mask with room for the `capacity` rows expected, if
that is more than there are. -/
def grow (v : ValidityBuilder) (rows : Growth) (capacity : Nat := 0) : Checked ValidityBuilder := do
  let len := v.len + rows.length
  Checked.require (len ≤ maxSize) .tooLarge
  if v.mask.isSome ∨ rows.nulls ≠ 0 then Bitmask.requireBits (max capacity len)
  return v.extend rows

/-- The validity of the rows, without a mask when none of them is null. -/
def finish (v : ValidityBuilder) : Validity := if v.nulls = 0 then none else v.mask

end ValidityBuilder

/-! ## Building fixed-width columns

Rows are copied with their slots and their validity, null or not. Nulls that are made here have zero
slots.
-/

/-- A growing column of fixed-width slots. -/
@[ext]
structure FixedBuilder (t : FixedType) where
  slots : List t.Slot
  validity : ValidityBuilder
  deriving DecidableEq

namespace FixedBuilder

variable {t : FixedType}

def empty (t : FixedType) : FixedBuilder t := ⟨[], .empty⟩

/-- Ask for room for `rows` rows. -/
def reserve (t : FixedType) (rows : Nat) : Except Rejection (FixedBuilder t) := do
  allocateBuffer .slots rows t.width
  return empty t

def length (b : FixedBuilder t) : Nat := b.slots.length

/-- Copy `len` rows from `offset` on. -/
def copy (b : FixedBuilder t) (c : FixedColumn t) (offset len : Nat) :
    Checked (FixedBuilder t) := do
  let part ← bufferPart c.slots offset (offset + len)
  return ⟨b.slots ++ part, b.validity.copy (c.validity.window offset len) len⟩

/-- Copy row `i`. -/
def copyRow (b : FixedBuilder t) (c : FixedColumn t) (i : Nat) : Checked (FixedBuilder t) := do
  let slot ← c.slotAt i
  let null ← c.validity.isNull i
  return ⟨b.slots ++ [slot], b.validity.add !null⟩

/-- There must be memory for the slots of `n` more rows. -/
def requireRows (b : FixedBuilder t) (n : Nat) : Checked Unit :=
  Checked.requireBytes ((b.length + n) * (t.width / 8))

/-- Append `n` null rows. -/
def fillNull (b : FixedBuilder t) (n : Nat) : Checked (FixedBuilder t) := do
  b.requireRows n
  return ⟨b.slots ++ List.replicate n 0, b.validity.addNull n⟩

/-- Append `n` copies of a nullable value. -/
def fill (b : FixedBuilder t) (value : Option t.Slot) (n : Nat) : Checked (FixedBuilder t) :=
  match value with
  | some x => do
    b.requireRows n
    return ⟨b.slots ++ List.replicate n x, b.validity.addValid n⟩
  | none => b.fillNull n

/-- The column. -/
def finish (b : FixedBuilder t) : Checked (FixedColumn t) :=
  FixedColumn.ofParts b.slots b.validity.finish

end FixedBuilder

/-! ## Building boolean columns

Rows are copied with their bits and their validity, null or not. Nulls that are made here have clear
bits.
-/

/-- A growing column of packed booleans. -/
@[ext]
structure BooleanBuilder where
  values : Bitmask
  validity : ValidityBuilder
  deriving DecidableEq

namespace BooleanBuilder

def empty : BooleanBuilder := ⟨.empty, .empty⟩

/-- Ask for room for `rows` rows. -/
def reserve (rows : Nat) : Except Rejection BooleanBuilder := do
  Bitmask.empty.reserve rows
  return empty

def length (b : BooleanBuilder) : Nat := b.values.len

/-- Copy `len` rows from `offset` on. -/
def copy (b : BooleanBuilder) (c : BooleanColumn) (offset len : Nat) : BooleanBuilder :=
  ⟨b.values.append (c.window offset len), b.validity.copy (c.validity.window offset len) len⟩

/-- Copy row `i`. -/
def copyRow (b : BooleanBuilder) (c : BooleanColumn) (i : Nat) : Checked BooleanBuilder := do
  let value ← c.valueAt i
  let null ← c.validity.isNull i
  return ⟨b.values.push value, b.validity.add !null⟩

/-- There must be memory for the bits of `n` more rows. -/
def requireRows (b : BooleanBuilder) (n : Nat) : Checked Unit := Bitmask.requireBits (b.length + n)

/-- Append `n` null rows. -/
def fillNull (b : BooleanBuilder) (n : Nat) : Checked BooleanBuilder := do
  b.requireRows n
  return ⟨b.values.pushMany false n, b.validity.addNull n⟩

/-- Append `n` copies of a nullable value. -/
def fill (b : BooleanBuilder) (value : Option Bool) (n : Nat) : Checked BooleanBuilder :=
  match value with
  | some x => do
    b.requireRows n
    return ⟨b.values.pushMany x n, b.validity.addValid n⟩
  | none => b.fillNull n

/-- The column. -/
def finish (b : BooleanBuilder) : Checked BooleanColumn :=
  BooleanColumn.ofParts b.values b.validity.finish

end BooleanBuilder

/-! ## Building text columns

Copied rows keep their bytes, null or not, and their offsets are moved to follow the bytes so far. A
change that would pass the greatest offset is rejected before it starts. Bytes that were not
reserved have no one to refuse them, so growth past all memory is a fault. Nulls that are made here
have no bytes.
-/

/-- A growing column of byte strings. -/
@[ext]
structure TextBuilder (t : TextType) where
  offsets : Offsets t.offsetWidth
  bytes : Bytes
  validity : ValidityBuilder
  deriving DecidableEq

namespace TextBuilder

variable {t : TextType}

def empty (t : TextType) : TextBuilder t := ⟨[0], [], .empty⟩

/-- Ask for room for `rows` rows of `bytes` bytes in all. -/
def reserve (t : TextType) (rows bytes : Nat) : Except Rejection (TextBuilder t) := do
  allocateBuffer .textOffsets (rows + 1) t.offsetWidth
  allocateBuffer .textBytes bytes 8
  return empty t

def length (b : TextBuilder t) : Nat := b.offsets.rows

/-- Room for `extra` more bytes: they must stay within the greatest offset. -/
def checkRoom (b : TextBuilder t) (extra : Nat) : Except Rejection Unit :=
  let stop := addSat b.bytes.length extra
  if stop ≤ Offsets.greatest t.offsetWidth then .ok ()
  else .error (.allocationFailure (.textOverflow stop))

/-- There must be memory for `extra` more bytes. -/
def requireBytes (b : TextBuilder t) (extra : Nat) : Checked Unit :=
  Checked.requireBytes (b.bytes.length + extra)

/-- Append one row of the given bytes. -/
def add (b : TextBuilder t) (text : Bytes) (valid : Bool) : Except Failure (TextBuilder t) := do
  Failure.ofRejected (b.checkRoom text.length)
  (b.requireBytes text.length).lift
  let stop := b.bytes.length + text.length
  return ⟨b.offsets ++ [BitVec.ofNat _ stop], b.bytes ++ text, b.validity.add valid⟩

/-- Copy `len` rows from `offset` on. -/
def copy (b : TextBuilder t) (c : TextColumn t) (offset len : Nat) :
    Except Failure (TextBuilder t) :=
  if len = 0 then .ok b
  else do
    let (start, stop) ← (c.offsets.extent offset len).lift
    Failure.ofRejected (b.checkRoom (stop.toNat - start.toNat))
    let part ← (bufferPart c.bytes start.toNat stop.toNat).lift
    (b.requireBytes part.length).lift
    return ⟨b.offsets ++ c.offsets.moved offset len b.offsets.last, b.bytes ++ part,
      b.validity.copy (c.validity.window offset len) len⟩

/-- Copy row `i`. -/
def copyRow (b : TextBuilder t) (c : TextColumn t) (i : Nat) : Except Failure (TextBuilder t) := do
  let text ← (c.bytesAt i).lift
  let null ← (c.validity.isNull i).lift
  b.add text !null

/-- Append `n` null rows. There must be memory for their offsets. -/
def fillNull (b : TextBuilder t) (n : Nat) : Checked (TextBuilder t) := do
  Checked.requireBytes ((b.offsets.length + n) * (t.offsetWidth / 8))
  return ⟨b.offsets ++ List.replicate n b.offsets.last, b.bytes, b.validity.addNull n⟩

/-- Append `n` copies of a nullable value. All of them must fit; then they are made one by one. -/
def fill (b : TextBuilder t) (value : Option Bytes) (n : Nat) : Attempt (TextBuilder t) :=
  match value with
  | none => .of b (b.fillNull n).lift
  | some text =>
    match b.checkRoom (mulSat text.length n) with
    | .error e => .failed b (.rejected e)
    | .ok _ => Attempt.iterate (fun b => .of b (b.add text true)) n b

/-- The column. -/
def finish (b : TextBuilder t) : Checked (TextColumn t) :=
  TextColumn.ofParts b.offsets b.bytes b.validity.finish

end TextBuilder

end Columnar
