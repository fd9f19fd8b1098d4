import Columnar.Proofs.Builder.Basic
import Columnar.Proofs.Builder.Reachable

/-!
# Where offsets of 32 bits end

Offsets count a **payload**, the bytes of texts or the elements of lists. Room for more of it is
checked on sums and products that stop at the greatest size, and the offsets themselves come from
words: a copied window moves those of its source, a copied row or list adds to the last one, and a
text takes the length of all bytes. A type is **narrow** if its payload is all that its offsets
count, and they have 32 bits.

In a narrow builder all this is exact. A change that suits it is rejected for want of room exactly
if the payload would be more than 32 bits can count, at whatever mix of windows, rows, copies and
nulls, and otherwise each offset is the payload of the rows before it, over unbounded numbers.
-/

namespace Columnar

namespace DataType

/-- The payload is all that the offsets of the type count, and they have 32 bits. -/
def Narrow : DataType → Prop
  | .text t => t = .string
  | .list (.fixed _) | .list .boolean => True
  | _ => False

/-- What the outer offsets of a column of the type count: bytes of text, or elements of lists. -/
def payloadOf : DataType → List Row → Nat
  | .text _, rows => Row.textBytesOf rows
  | .list _, rows => (Row.elementsOf rows).length
  | _, _ => 0

theorem payloadOf_append (type : DataType) (xs ys : List Row) :
    type.payloadOf (xs ++ ys) = type.payloadOf xs + type.payloadOf ys := by
  cases type with
  | text t => exact Row.textBytesOf_append xs ys
  | list child => rw [payloadOf, Row.elementsOf_append, List.length_append, payloadOf, payloadOf]
  | _ => rfl

theorem payloadOf_blanks (type : DataType) (n : Nat) :
    type.payloadOf (List.replicate n (.blank type)) = 0 := by
  cases type with
  | text t => rw [payloadOf, Row.textBytesOf_replicate, Row.blank, Row.textBytes]; rfl
  | list child => rw [payloadOf, Row.length_elementsOf_replicate, Row.blank, Row.elements]; rfl
  | _ => rfl

variable {type : DataType}

/-- In narrow types the payload is all that there must be room for. -/
theorem Narrow.room_iff (h : type.Narrow) {rows : List Row} :
    type.Room rows ↔ type.payloadOf rows ≤ 0xFFFFFFFF := by
  cases type with
  | text t =>
    obtain rfl : t = .string := h
    exact Iff.rfl
  | list child =>
    cases child with
    | fixed | boolean => exact ⟨fun hroom => hroom.1, fun hle => ⟨hle, trivial⟩⟩
    | _ => exact h.elim
  | _ => exact h.elim

theorem Narrow.not_wide (h : type.Narrow) : ¬ type.Wide := by
  cases type with
  | text t =>
    obtain rfl : t = .string := h
    exact (by decide : ¬ addressableBytes < Offsets.greatest TextType.string.offsetWidth)
  | list child =>
    cases child with
    | fixed | boolean => exact id
    | _ => exact h.elim
  | _ => exact h.elim

end DataType

namespace Builder

/-- The payload that the builder holds. -/
def payload : Builder → Nat
  | text _ b => b.bytes.length
  | list _ child => child.length
  | _ => 0

/-- The outer offsets, as numbers. -/
def offsets : Builder → List Nat
  | text _ b => b.offsets.map BitVec.toNat
  | list rows _ => rows.offsets.map BitVec.toNat
  | _ => []

variable {b : Builder} {rows : List Row} {change : Change}

theorem Holds.payload_eq (h : b.Holds rows) : b.payload = b.type.payloadOf rows := by
  cases b with
  | text t b => exact (TextBuilder.Holds.textBytes_eq h).symm
  | list b child =>
    obtain ⟨elements, hb, hchild⟩ := h
    rw [payload, type, DataType.payloadOf, hb.elementsOf_eq, hchild.length_eq]
  | _ => rfl

/-- **Offsets are exact.** Each of them is the payload of the rows before. -/
theorem Holds.offsets_eq (h : b.Holds rows) (hn : b.type.Narrow) :
    b.offsets =
      (List.range (rows.length + 1)).map fun i => b.type.payloadOf (rows.take i) := by
  cases b with
  | text t b => exact TextBuilder.Holds.offsets_eq h
  | list b child =>
    obtain ⟨elements, hb, -⟩ := h
    exact hb.offsets_eq
  | _ => exact hn.elim

/-- In narrow builders only nulls are made in bulk. -/
theorem row_of_bulk {type : DataType} {s : Scalar} (hn : type.Narrow)
    (hfits : (Value.scalar s).Fits type) (hbulk : s.Bulk) : s.row type = .blank type := by
  cases s with
  | null => rfl
  | fixed u v =>
    obtain rfl : DataType.fixed u = type := hfits rfl
    exact hn.elim
  | boolean v =>
    obtain rfl : DataType.boolean = type := hfits rfl
    exact hn.elim
  | text u v =>
    cases v with
    | none => rfl
    | some v => exact hbulk.elim
  | list child v =>
    cases v with
    | none => rfl
    | some v => exact hbulk.elim

theorem Change.payloadOf_of_exhausts (hn : b.type.Narrow) (hs : change.Suits b.type)
    (hm : change.Exhausts b) : b.type.payloadOf (change.rows b.type) = 0 := by
  have hscalar : ∀ s n, (Value.scalar s).Fits b.type → s.Bulk →
      b.type.payloadOf (List.replicate n (s.row b.type)) = 0 := fun s n hfits hbulk => by
    rw [row_of_bulk hn hfits hbulk, DataType.payloadOf_blanks]
  cases change with
  | copy c offset len => exact hm.elim
  | copyRow c i => exact hm.elim
  | fill s n => exact hscalar s n hs.1 hm.1
  | fillNull n => exact b.type.payloadOf_blanks n
  | take value start len =>
    cases value with
    | column v => exact hm.1.elim
    | scalar s =>
      rw [rows_take_scalar]
      exact hscalar s len hs.1 hm.1
  | takeRow value i =>
    cases value with
    | column v => exact hm.1.elim
    | scalar s => exact hscalar s 1 hs.1 hm.1

/-- **Offsets of 32 bits never wrap, and overflow is reported exactly.** In every narrow builder
that can be reached, a change that suits it is rejected for want of room exactly if the payload so
far and that of the new rows come to more than 32 bits can count. Otherwise it goes through, unless
there is no memory for the nulls that it makes, and then each offset is the payload of the rows
before it. -/
theorem overflow_exact (hb : b.Reachable) (hn : b.type.Narrow) (hw : change.WellFormed)
    (hs : change.Suits b.type) :
    ((∃ e, (change.make b).failure = some (.rejected e) ∧ e.IsAllocation) ↔
      0xFFFFFFFF < b.payload + b.type.payloadOf (change.rows b.type)) ∧
    ((change.make b).failure = none ↔
      b.payload + b.type.payloadOf (change.rows b.type) ≤ 0xFFFFFFFF ∧ ¬ change.Exhausts b) ∧
    ((change.make b).failure = none → ∃ before out, b.finish = .ok before ∧
      (change.make b).state.finish = .ok out ∧
      out.rows = before.rows ++ change.rows b.type ∧
      (change.make b).state.payload = b.payload + b.type.payloadOf (change.rows b.type) ∧
      (change.make b).state.offsets =
        (List.range (out.length + 1)).map fun i => b.type.payloadOf (out.rows.take i)) := by
  obtain ⟨rows, hb⟩ := hb.sound
  by_cases hm : change.Exhausts b
  -- Only nulls are made in bulk. They add no payload, so there is room for them, but no memory.
  · have hfits : b.payload + b.type.payloadOf (change.rows b.type) ≤ 0xFFFFFFFF := by
      rw [Change.payloadOf_of_exhausts hn hs hm, hb.payload_eq]
      exact hn.room_iff.1 hb.room
    rw [Change.make_of_exhausts hb hs hm]
    refine ⟨⟨?_, fun hover => absurd hfits (Nat.not_le_of_lt hover)⟩,
      ⟨?_, fun h => absurd hm h.2⟩, ?_⟩
    · rintro ⟨e, he, -⟩
      cases he
    · intro h
      cases h
    · intro h
      cases h
  -- Otherwise the change adds its rows if there is room for them, and for no other reason does it
  -- fail.
  · have hadd := Change.make_adds hb hw hs hm
    have hroom : b.type.Room (rows ++ change.rows b.type) ↔
        b.payload + b.type.payloadOf (change.rows b.type) ≤ 0xFFFFFFFF := by
      rw [hn.room_iff, DataType.payloadOf_append, hb.payload_eq]
    refine ⟨?_, ?_, fun hnone => ?_⟩
    · rw [hadd.rejected_iff hn.not_wide, hroom, Nat.not_le]
    · rw [hadd.failure_eq_none hn.not_wide, hroom]
      exact ⟨fun h => ⟨h.2, hm⟩, fun h => ⟨rfl, h.1⟩⟩
    · obtain ⟨htype, hstate, -⟩ := hadd.state hnone
      obtain ⟨before, hbefore, -, -, rfl⟩ := hb.finish
      obtain ⟨out, hout, -, -, hrows⟩ := hstate.finish
      refine ⟨before, out, hbefore, hout, hrows, ?_, ?_⟩
      · rw [hstate.payload_eq, htype, DataType.payloadOf_append, hb.payload_eq]
      · rw [hstate.offsets_eq (htype.symm ▸ hn), htype, ← hrows, Column.length_rows]

/-- One byte is there, and as many more texts of one byte as 32 bits can count with it, but not one
more. -/
theorem overflow_exact_at_boundary :
    ∃ b : Builder, b.type = .text .string ∧ b.payload = 1 ∧
      (b.fill (.text .string (some "a")) 0xFFFFFFFE).failure = none ∧
      ∃ e, (b.fill (.text .string (some "a")) 0xFFFFFFFF).failure = some (.rejected e) ∧
        e.IsAllocation := by
  have hreserve : (reserve (.text .string) 0 0).outcome = .ok (text .string (.empty .string)) := rfl
  obtain ⟨b, hb, htype, hone⟩ :
      ∃ b : Builder, b.Reachable ∧ b.type = .text .string ∧ b.payload = 1 :=
    ⟨_, (Reachable.reserve hreserve).after [.fill (.text .string (some "a")) 1] (by decide), rfl,
      by decide⟩
  have hexact := fun n => overflow_exact hb (by rw [htype]; rfl)
    (show (Change.fill (.text .string (some "a")) n).WellFormed from trivial)
    ⟨fun _ => htype.symm, trivial⟩
  have hpayload : ∀ n, b.payload + b.type.payloadOf
      ((Change.fill (.text .string (some "a")) n).rows b.type) = 1 + n := fun n => by
    rw [hone, htype]
    exact congrArg (1 + ·) ((Row.textBytesOf_replicate n _).trans (Nat.mul_one n))
  refine ⟨b, htype, hone, (hexact 0xFFFFFFFE).2.1.2 ⟨?_, fun h => h.1⟩, (hexact 0xFFFFFFFF).1.2 ?_⟩
  · exact Nat.le_trans (Nat.le_of_eq (hpayload _)) (by decide)
  · exact Nat.lt_of_lt_of_le (by decide) (Nat.le_of_eq (hpayload _).symm)

end Builder

end Columnar
