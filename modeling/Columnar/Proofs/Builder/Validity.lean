import Columnar.Builder.Storage
import Columnar.Proofs.Column.Rows

/-!
# Built validity is a list of bits

A `ValidityBuilder` makes its mask late, counts its nulls on the side, and takes a short cut past
windows without nulls. It **tracks** a list of bits all the same: the length and the count are those
of the list, there is a mask exactly when the list has a null, and then the mask is tight and has
the list's bits. So what it finishes with is canonical.

That holds of **any rows that are appended in any order**, and whatever number of rows is expected:
growth breaks off only where the rows cannot be counted or a mask of them cannot be had.
-/

namespace Columnar

open Bits

namespace ValidityBuilder

/-- The builder stands for the validity bits of the rows so far. -/
structure Tracks (v : ValidityBuilder) (bits : List Bool) : Prop where
  len : v.len = bits.length
  nulls : v.nulls = bits.count false
  mask : match v.mask with
    | none => false ∉ bits
    | some m => m.Tight ∧ m.toList = bits ∧ false ∈ bits

theorem tracks_empty : empty.Tracks [] := ⟨rfl, rfl, List.not_mem_nil⟩

variable {v : ValidityBuilder} {bits : List Bool}

theorem Tracks.made (h : v.Tracks bits) : v.made.Tight ∧ v.made.toList = bits := by
  have hmask := h.mask
  rw [ValidityBuilder.made]
  cases hm : v.mask with
  | none =>
    rw [hm] at hmask
    have hbits := Bitmask.tight_empty.clean.toList_pushMany true v.len
    rw [Bitmask.toList_empty, List.nil_append, h.len,
      ← Validity.eq_replicate_of_no_null hmask] at hbits
    exact ⟨Bitmask.tight_empty.clean.pushMany true v.len, by rw [Option.getD_none, h.len, hbits]⟩
  | some m =>
    rw [hm] at hmask
    exact ⟨hmask.1, hmask.2.1⟩

theorem Tracks.addValid (h : v.Tracks bits) (n : Nat) :
    (v.addValid n).Tracks (bits ++ List.replicate n true) := by
  refine ⟨by simp [ValidityBuilder.addValid, h.len], ?_, ?_⟩
  · simp [ValidityBuilder.addValid, h.nulls, List.count_append, List.count_replicate]
  · have hmask := h.mask
    rw [ValidityBuilder.addValid]
    cases hm : v.mask with
    | none =>
      rw [hm] at hmask
      simp only [Option.map_none, List.mem_append, List.mem_replicate]
      rintro (hin | ⟨-, hin⟩)
      · exact hmask hin
      · exact absurd hin (by decide)
    | some m =>
      rw [hm] at hmask
      obtain ⟨htight, hlist, hnull⟩ := hmask
      exact ⟨htight.clean.pushMany true n, by rw [htight.clean.toList_pushMany, hlist],
        List.mem_append_left _ hnull⟩

theorem Tracks.append {more : List Bool} {mask : Bitmask} (h : v.Tracks bits)
    (hnull : false ∈ more) (htight : mask.Tight) (hlist : mask.toList = bits ++ more) :
    (ValidityBuilder.mk (some mask) (v.len + more.length) (v.nulls + more.count false)).Tracks
      (bits ++ more) :=
  ⟨by simp [h.len], by simp [h.nulls, List.count_append],
    htight, hlist, List.mem_append_right _ hnull⟩

theorem Tracks.addNull (h : v.Tracks bits) (n : Nat) :
    (v.addNull n).Tracks (bits ++ List.replicate n false) := by
  rw [ValidityBuilder.addNull]
  by_cases hn : n = 0
  · simpa [hn] using h
  · obtain ⟨htight, hlist⟩ := h.made
    have hnull : false ∈ List.replicate n false := List.mem_replicate.2 ⟨hn, rfl⟩
    have := h.append hnull (htight.clean.pushMany false n)
      (by rw [htight.clean.toList_pushMany, hlist])
    simpa [hn, List.count_replicate] using this

theorem Tracks.add (h : v.Tracks bits) (valid : Bool) :
    (v.add valid).Tracks (bits ++ [valid]) := by
  cases valid with
  | true => exact h.addValid 1
  | false => exact h.addNull 1

theorem Tracks.copyWindow (h : v.Tracks bits) (w : Window) :
    (v.copy (some w) w.len).Tracks (bits ++ w.toList) := by
  have hzeros : w.len - w.countOnes = w.toList.count false := w.countZeros_eq
  have hlen := w.length_toList
  rw [ValidityBuilder.copy]
  simp only [hzeros]
  by_cases hn : w.toList.count false = 0
  · have hall := Validity.eq_replicate_of_no_null (List.count_eq_zero.1 hn)
    rw [hlen] at hall
    rw [if_pos hn, hall]
    exact h.addValid w.len
  · have hnull : false ∈ w.toList := List.count_pos_iff.1 (Nat.pos_of_ne_zero hn)
    obtain ⟨htight, hlist⟩ := h.made
    have := h.append hnull (htight.clean.append w) (by rw [htight.clean.toList_append, hlist])
    rw [if_neg hn]
    rwa [hlen] at this

theorem Tracks.copy (h : v.Tracks bits) (source : Validity) (offset len : Nat) :
    (v.copy (source.window offset len) len).Tracks (bits ++ source.bits offset len) := by
  cases source with
  | none =>
    rw [Validity.bits_none]
    exact h.addValid len
  | some m => exact h.copyWindow ⟨m, offset, len⟩

/-- The bits say all about a builder of validity. -/
theorem Tracks.unique {u : ValidityBuilder} (hu : u.Tracks bits) (hv : v.Tracks bits) : u = v := by
  refine ValidityBuilder.ext ?_ (hu.len.trans hv.len.symm) (hu.nulls.trans hv.nulls.symm)
  have hum := hu.mask
  have hvm := hv.mask
  cases hm : u.mask with
  | none =>
    rw [hm] at hum
    cases hn : v.mask with
    | none => rfl
    | some n =>
      rw [hn] at hvm
      exact absurd hvm.2.2 hum
  | some m =>
    rw [hm] at hum
    cases hn : v.mask with
    | none =>
      rw [hn] at hvm
      exact absurd hum.2.2 hvm
    | some n =>
      rw [hn] at hvm
      exact congrArg some (hum.1.ext hvm.1 (hum.2.1.trans hvm.2.1.symm))

/-- A mask that was made is needed, as a null made it. -/
theorem Tracks.finish_eq (h : v.Tracks bits) : v.finish = v.mask := by
  have hmask := h.mask
  rw [ValidityBuilder.finish]
  cases hm : v.mask with
  | none => exact ite_self _
  | some m =>
    rw [hm] at hmask
    have hn : v.nulls ≠ 0 := by
      rw [h.nulls]
      exact Nat.pos_iff_ne_zero.1 (List.count_pos_iff.2 hmask.2.2)
    exact if_neg hn

/-- **Built validity is canonical and has the bits that were appended.** -/
theorem Tracks.finish (h : v.Tracks bits) :
    v.finish.Canonical bits.length ∧ v.finish.bits 0 bits.length = bits := by
  have hmask := h.mask
  rw [h.finish_eq]
  cases hm : v.mask with
  | none =>
    rw [hm] at hmask
    rw [Validity.bits_none]
    exact ⟨trivial, (Validity.eq_replicate_of_no_null hmask).symm⟩
  | some m =>
    rw [hm] at hmask
    obtain ⟨htight, hlist, hnull⟩ := hmask
    have hlen : m.len = bits.length := by rw [← hlist, Bitmask.length_toList]
    rw [← hlist] at hnull
    refine ⟨hlen ▸ Validity.canonical_mask htight hnull, ?_⟩
    rw [← hlist, Bitmask.length_toList, Validity.bits_whole]

theorem Tracks.check_finish (h : v.Tracks bits) {rows : Nat} (hrows : bits.length = rows) :
    v.finish.check rows = .ok () := by
  rw [← hrows]
  exact h.finish.1.covers.check_eq

end ValidityBuilder

/-! ## Growth -/

namespace Growth

/-- The validity bits of the rows. Those of a window are its bits, wherever it starts. -/
def bits : Growth → List Bool
  | row v => [v]
  | valid n | unmasked n => List.replicate n true
  | null n => List.replicate n false
  | copied w => w.toList

@[simp] theorem length_bits (rows : Growth) : rows.bits.length = rows.length := by
  cases rows <;> simp [bits, length]

theorem nulls_eq (rows : Growth) : rows.nulls = rows.bits.count false := by
  cases rows with
  | row v => cases v <;> rfl
  | valid n | unmasked n => simp [nulls, bits, List.count_replicate]
  | null n => simp [nulls, bits]
  | copied w => exact w.countZeros_eq

end Growth

namespace ValidityBuilder

/-- Append rows after rows to a builder that expects `capacity` of them. -/
def grown (capacity : Nat) (steps : List Growth) : Checked ValidityBuilder :=
  steps.foldlM (fun v rows => v.grow rows capacity) empty

/-- Reading the builder is reading the list. It finishes with the list in a buffer that holds
nothing else, and with no mask if there is no null. -/
structure Denotes (v : ValidityBuilder) (bits : List Bool) : Prop where
  len : v.len = bits.length
  nulls : v.nulls = bits.count false
  finish_eq_none : v.finish = none ↔ false ∉ bits
  finish_mask : ∀ m, v.finish = some m → m.toList = bits ∧ m.Tight

/-- Rows with these bits are too many to be counted, or one of them is null and there is no memory
for a mask of them, or of as many as are expected. -/
def Exceeds (capacity : Nat) (bits : List Bool) : Prop :=
  maxSize < bits.length ∨
    false ∈ bits ∧ addressableBytes < byteCount (max capacity bits.length)

instance (capacity : Nat) (bits : List Bool) : Decidable (Exceeds capacity bits) := by
  unfold Exceeds
  infer_instance

theorem not_exceeds_nil (capacity : Nat) : ¬ Exceeds capacity [] := by
  simp [Exceeds]

theorem Exceeds.append {capacity : Nat} {bits : List Bool} (h : Exceeds capacity bits)
    (more : List Bool) : Exceeds capacity (bits ++ more) := by
  rw [Exceeds, List.length_append]
  rcases h with hlen | ⟨hnull, hbytes⟩
  · exact .inl (by omega)
  · refine .inr ⟨List.mem_append_left more hnull, ?_⟩
    simp only [byteCount] at hbytes ⊢
    omega

variable {v : ValidityBuilder} {bits : List Bool}

theorem Tracks.denotes (h : v.Tracks bits) : v.Denotes bits := by
  have hmask := h.mask
  have hfinish := h.finish_eq
  cases hm : v.mask with
  | none =>
    rw [hm] at hmask hfinish
    refine ⟨h.len, h.nulls, iff_of_true hfinish hmask, fun m hsome => ?_⟩
    rw [hfinish] at hsome
    cases hsome
  | some m =>
    rw [hm] at hmask hfinish
    obtain ⟨htight, hlist, hnull⟩ := hmask
    refine ⟨h.len, h.nulls, iff_of_false (by simp [hfinish]) (absurd hnull), fun m' hsome => ?_⟩
    rw [hfinish] at hsome
    cases hsome
    exact ⟨hlist, htight⟩

theorem Tracks.isSome_mask (h : v.Tracks bits) : v.mask.isSome ↔ false ∈ bits := by
  have hmask := h.mask
  cases hm : v.mask with
  | none =>
    rw [hm] at hmask
    simpa using hmask
  | some m =>
    rw [hm] at hmask
    simpa using hmask.2.2

theorem Tracks.extend (h : v.Tracks bits) (rows : Growth) :
    (v.extend rows).Tracks (bits ++ rows.bits) := by
  cases rows with
  | row valid => exact h.add valid
  | valid n => exact h.addValid n
  | null n => exact h.addNull n
  | copied w => exact h.copyWindow w
  | unmasked n => exact h.addValid n

/-- **One growth** goes through exactly if the rows do not exceed what there is. -/
theorem Tracks.grow_eq (h : v.Tracks bits) (capacity : Nat) (rows : Growth) :
    v.grow rows capacity =
      if Exceeds capacity (bits ++ rows.bits) then .error .tooLarge else .ok (v.extend rows) := by
  have hlen : (bits ++ rows.bits).length = v.len + rows.length := by simp [h.len]
  have hnull : false ∈ bits ++ rows.bits ↔ v.mask.isSome ∨ rows.nulls ≠ 0 := by
    rw [List.mem_append, h.isSome_mask, rows.nulls_eq, ne_eq, List.count_eq_zero,
      Decidable.not_not]
  simp only [Exceeds, hlen, hnull]
  rw [grow]
  by_cases hsize : v.len + rows.length ≤ maxSize
  · rw [Checked.require_of hsize, ok_bind]
    by_cases hmask : v.mask.isSome ∨ rows.nulls ≠ 0
    · rw [if_pos hmask, Bitmask.requireBits]
      rcases Nat.lt_or_ge addressableBytes (byteCount (max capacity (v.len + rows.length))) with
        hmem | hmem
      · rw [requireBytes_eq_error hmem, if_pos (Or.inr ⟨hmask, hmem⟩)]
        rfl
      · rw [requireBytes_eq_ok hmem,
          if_neg (not_or.2 ⟨Nat.not_lt.2 hsize, fun hno => Nat.not_lt.2 hmem hno.2⟩)]
        rfl
    · rw [if_neg hmask, if_neg (not_or.2 ⟨Nat.not_lt.2 hsize, fun hno => hmask hno.1⟩)]
      rfl
  · rw [Checked.require, if_neg hsize, if_pos (Or.inl (Nat.lt_of_not_le hsize))]
    rfl

/-- **Growth after growth**: all go through, and leave a builder of all the bits, exactly if the
rows do not exceed what there is in the end. -/
theorem Tracks.foldlM_grow (h : v.Tracks bits) {capacity : Nat} (hfits : ¬ Exceeds capacity bits)
    (steps : List Growth) :
    (Exceeds capacity (bits ++ steps.flatMap Growth.bits) →
      steps.foldlM (fun v rows => v.grow rows capacity) v = .error .tooLarge) ∧
    (¬ Exceeds capacity (bits ++ steps.flatMap Growth.bits) →
      ∃ v', steps.foldlM (fun v rows => v.grow rows capacity) v = .ok v' ∧
        v'.Tracks (bits ++ steps.flatMap Growth.bits)) := by
  -- For all builders at once, as each growth leaves the rest to another one.
  induction steps generalizing v bits with
  | nil =>
    rw [List.flatMap_nil, List.append_nil]
    exact ⟨fun hno => absurd hno hfits, fun _ => ⟨v, rfl, h⟩⟩
  | cons rows rest ih =>
    rw [List.flatMap_cons, ← List.append_assoc, List.foldlM_cons, h.grow_eq]
    by_cases hno : Exceeds capacity (bits ++ rows.bits)
    · rw [if_pos hno]
      exact ⟨fun _ => rfl, fun hyes => absurd (hno.append _) hyes⟩
    · rw [if_neg hno]
      exact ih (h.extend rows) hno

/-- **Built validity is a list of booleans**, whatever rows are appended one after the other, from
windows at whatever bit offsets, and however many rows are expected. The builder counts the rows and
the nulls of the list. It finishes without a mask exactly if no row is null, and otherwise with a
tight mask of the list. Only rows that exceed what there is break it off. -/
theorem grown_denotes (capacity : Nat) (steps : List Growth) :
    (Exceeds capacity (steps.flatMap Growth.bits) → grown capacity steps = .error .tooLarge) ∧
    (¬ Exceeds capacity (steps.flatMap Growth.bits) →
      ∃ v, grown capacity steps = .ok v ∧ v.Denotes (steps.flatMap Growth.bits)) := by
  obtain ⟨hno, hyes⟩ := tracks_empty.foldlM_grow (not_exceeds_nil capacity) steps
  rw [List.nil_append] at hno hyes
  refine ⟨hno, fun hfits => ?_⟩
  obtain ⟨v, hok, htracks⟩ := hyes hfits
  exact ⟨v, hok, htracks.denotes⟩

/-- The null of a copied window makes the mask, with set bits for the rows before it. -/
example :
    (grown 8 [.valid 2, .unmasked 1, .copied ⟨.ofList [true, true, false], 1, 2⟩, .row true]).map
      finish = .ok (some (.ofList [true, true, true, true, false, true])) := rfl

end ValidityBuilder

end Columnar
