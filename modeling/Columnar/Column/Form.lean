import Columnar.Value

/-!
# Well-formed and canonical columns

Every operation relies on columns that are **well-formed**: masks cover their rows one to one, and
offsets ascend and stay within what they point into. Spare bytes, spare child elements, a first
offset other than zero, and a mask without nulls are all well-formed.

Every call, every copy of a column and every builder makes a **canonical** column, in which nothing
is spare: a mask is there only if a row is null and is tight, offsets start at zero, and the last
one is where the bytes or the child end. So its rows determine a canonical column of a given type.
-/

namespace Columnar

namespace Bitmask

/-- The buffer holds the bits and nothing else: no byte is spare and no padding bit is set. -/
def Tight (m : Bitmask) : Prop :=
  m.bytes.length = Bits.byteCount m.len ∧ ∀ i < 8 * m.bytes.length, m.len ≤ i → m.bit i = false

instance (m : Bitmask) : Decidable m.Tight := by
  unfold Tight
  infer_instance

end Bitmask

namespace Validity

/-- A mask has a bit per row. -/
def Covers : Validity → Nat → Prop
  | none, _ => True
  | some m, rows => m.len = rows

/-- A mask has a bit per row, one of them clear, and is tight. -/
def Canonical : Validity → Nat → Prop
  | none, _ => True
  | some m, rows => m.len = rows ∧ m.Tight ∧ ∃ i < rows, m.bit i = false

theorem Canonical.covers {v : Validity} {rows : Nat} (h : v.Canonical rows) : v.Covers rows := by
  cases v with
  | none => trivial
  | some m => exact h.1

instance (v : Validity) (rows : Nat) : Decidable (v.Covers rows) := by
  cases v <;> unfold Covers <;> infer_instance

instance (v : Validity) (rows : Nat) : Decidable (v.Canonical rows) := by
  cases v <;> unfold Canonical <;> infer_instance

end Validity

namespace Offsets

variable {w : Nat}

/-- There is a first offset, none is less than the one before, and the last is at most `limit`. -/
def Ascend (offsets : Offsets w) (limit : Nat) : Prop :=
  offsets ≠ [] ∧ offsets.Pairwise (· ≤ ·) ∧ offsets.last.toNat ≤ limit

/-- The offsets ascend from zero to exactly `limit`. -/
def Fill (offsets : Offsets w) (limit : Nat) : Prop :=
  offsets.head? = some 0 ∧ offsets.Pairwise (· ≤ ·) ∧ offsets.last.toNat = limit

theorem Fill.ascend {offsets : Offsets w} {limit : Nat} (h : offsets.Fill limit) :
    offsets.Ascend limit := by
  refine ⟨?_, h.2.1, Nat.le_of_eq h.2.2⟩
  rintro rfl
  exact absurd h.1 (by simp)

instance (offsets : Offsets w) (limit : Nat) : Decidable (offsets.Ascend limit) := by
  unfold Ascend
  infer_instance

instance (offsets : Offsets w) (limit : Nat) : Decidable (offsets.Fill limit) := by
  unfold Fill
  infer_instance

end Offsets

namespace Column

/-- Masks cover rows, and offsets ascend within what they point into. -/
def WellFormed : Column → Prop
  | fixed _ c => c.validity.Covers c.length
  | boolean c => c.validity.Covers c.length
  | text _ c => c.offsets.Ascend c.bytes.length ∧ c.validity.Covers c.length
  | list r child =>
    r.offsets.Ascend child.length ∧ r.validity.Covers r.length ∧ child.WellFormed
  | null _ => True

/-- Nothing is spare, so that the rows say all. -/
def Canonical : Column → Prop
  | fixed _ c => c.validity.Canonical c.length
  | boolean c => c.values.Tight ∧ c.validity.Canonical c.length
  | text _ c => c.offsets.Fill c.bytes.length ∧ c.validity.Canonical c.length
  | list r child =>
    r.offsets.Fill child.length ∧ r.validity.Canonical r.length ∧ child.Canonical
  | null _ => True

theorem Canonical.wellFormed {c : Column} (h : c.Canonical) : c.WellFormed := by
  induction c with
  | fixed _ c => exact Validity.Canonical.covers h
  | boolean c => exact h.2.covers
  | text _ c => exact ⟨h.1.ascend, h.2.covers⟩
  | list r child ih => exact ⟨h.1.ascend, h.2.1.covers, ih h.2.2⟩
  | null _ => trivial

theorem WellFormed.covers {c : Column} (h : c.WellFormed) : c.validity.Covers c.length := by
  cases c with
  | fixed | boolean => exact h
  | text => exact h.2
  | list => exact h.2.1
  | null => trivial

instance decidableWellFormed : (c : Column) → Decidable c.WellFormed
  | fixed _ c => inferInstanceAs (Decidable (c.validity.Covers c.length))
  | boolean c => inferInstanceAs (Decidable (c.validity.Covers c.length))
  | text _ c =>
    inferInstanceAs (Decidable (c.offsets.Ascend c.bytes.length ∧ c.validity.Covers c.length))
  | list r child =>
    have := decidableWellFormed child
    inferInstanceAs (Decidable
      (r.offsets.Ascend child.length ∧ r.validity.Covers r.length ∧ child.WellFormed))
  | null _ => .isTrue trivial

instance decidableCanonical : (c : Column) → Decidable c.Canonical
  | fixed _ c => inferInstanceAs (Decidable (c.validity.Canonical c.length))
  | boolean c => inferInstanceAs (Decidable (c.values.Tight ∧ c.validity.Canonical c.length))
  | text _ c =>
    inferInstanceAs (Decidable (c.offsets.Fill c.bytes.length ∧ c.validity.Canonical c.length))
  | list r child =>
    have := decidableCanonical child
    inferInstanceAs (Decidable
      (r.offsets.Fill child.length ∧ r.validity.Canonical r.length ∧ child.Canonical))
  | null _ => .isTrue trivial

end Column

namespace Scalar

/-- The elements of a list scalar are a well-formed column. -/
def WellFormed : Scalar → Prop
  | list _ (some c) => c.WellFormed
  | _ => True

/-- The elements of a list scalar have the type that the scalar states. -/
def Agrees : Scalar → Prop
  | list child (some c) => c.type = child
  | _ => True

instance : DecidablePred WellFormed
  | list _ (some c) => inferInstanceAs (Decidable c.WellFormed)
  | list _ none | null | fixed .. | boolean _ | text .. => .isTrue trivial

instance : DecidablePred Agrees
  | list child (some c) => inferInstanceAs (Decidable (c.type = child))
  | list _ none | null | fixed .. | boolean _ | text .. => .isTrue trivial

end Scalar

namespace Value

/-- The value is a view of a well-formed column, or a well-formed scalar. -/
def WellFormed : Value → Prop
  | column v => v.column.WellFormed
  | scalar s => s.WellFormed

/-- A list scalar has elements of the type that it states. -/
def Agrees : Value → Prop
  | column _ => True
  | scalar s => s.Agrees

instance : DecidablePred WellFormed
  | column v => inferInstanceAs (Decidable v.column.WellFormed)
  | scalar s => inferInstanceAs (Decidable s.WellFormed)

instance : DecidablePred Agrees
  | column _ => .isTrue trivial
  | scalar s => inferInstanceAs (Decidable s.Agrees)

end Value

end Columnar
