import Columnar.Proofs.Builder.Basic

/-!
# Fills and reservations

A fill asks for memory for as many rows as the builder has then. A **reservation** that went through
has asked for all of them already, so it **affords** every later fill. What a value supplies is
added as well, a row at a time or many at once.
-/

namespace Columnar

/-- There is memory for `rows` rows of the type: for their slots, bits or offsets. -/
def DataType.Affords : DataType → Nat → Prop
  | .null, _ => True
  | .boolean, rows => Bits.byteCount rows ≤ addressableBytes
  | .fixed t, rows => rows * (t.width / 8) ≤ addressableBytes
  | .text t, rows => (rows + 1) * (t.offsetWidth / 8) ≤ addressableBytes
  | .list _, rows => (rows + 1) * (listOffsetWidth / 8) ≤ addressableBytes

theorem DataType.Affords.mono {type : DataType} {m n : Nat} (h : type.Affords n) (hle : m ≤ n) :
    type.Affords m := by
  cases type with
  | null => trivial
  | boolean =>
    refine Nat.le_trans ?_ h
    exact Nat.div_le_div_right (Nat.add_le_add_right hle 7)
  | fixed t => exact Nat.le_trans (Nat.mul_le_mul_right _ hle) h
  | text t => exact Nat.le_trans (Nat.mul_le_mul_right _ (Nat.add_le_add_right hle 1)) h
  | list child => exact Nat.le_trans (Nat.mul_le_mul_right _ (Nat.add_le_add_right hle 1)) h

theorem allocateBuffer_cases (kind : BufferKind) (count width : Nat) :
    (∃ e, allocateBuffer kind count width = .error e ∧ e.IsAllocation) ∨
      allocateBuffer kind count width = .ok () ∧ count * (width / 8) ≤ addressableBytes := by
  rw [allocateBuffer]
  cases h : allocate (count * (width / 8)) with
  | none => exact .inr ⟨rfl, allocate_eq_none.1 h⟩
  | some refusal => exact .inl ⟨_, rfl, trivial⟩

theorem reserve_empty_cases (rows : Nat) :
    (∃ e, Bitmask.empty.reserve rows = .error e ∧ e.IsAllocation) ∨
      Bitmask.empty.reserve rows = .ok () ∧ Bits.byteCount rows ≤ addressableBytes := by
  have hroom : Bits.byteCount (Bitmask.empty.len + rows) - Bitmask.empty.bytes.length =
      Bits.byteCount rows := by
    rw [show Bitmask.empty.len + rows = rows from Nat.zero_add rows]
    rfl
  rw [Bitmask.reserve]
  rw [hroom]
  cases h : allocate (Bits.byteCount rows) with
  | none => exact .inr ⟨rfl, allocate_eq_none.1 h⟩
  | some refusal => exact .inl ⟨_, rfl, trivial⟩

/-- Copies of the scalar are made all at once, and memory is needed for all of them. Texts and lists
are copied one by one. -/
def Scalar.Bulk : Scalar → Prop
  | .text _ (some _) | .list _ (some _) => False
  | _ => True

theorem View.rowsFrom_eq (v : View) (start n : Nat) :
    v.column.rowsFrom (v.offset + start) n = (List.range n).map fun j => v.row (start + j) := by
  apply map_range_congr
  intro j _
  rw [Nat.add_assoc, row]

/-- The value can supply rows of a type to a call over `len` rows. -/
structure Value.Ready (type : DataType) (len : Nat) (value : Value) : Prop where
  wellFormed : value.WellFormed
  fits : value.Fits type
  length : ∀ n, value.length? = some n → n = len

namespace Builder

variable {b : Builder} {rows : List Row}

/-! ## Fills -/

theorem fillNull_adds (hb : b.Holds rows) {n : Nat} (hm : b.type.Affords (rows.length + n)) :
    b.Adds rows (List.replicate n (Row.blank b.type)) none (b.fillNull n) := by
  cases b with
  | fixed t b =>
    obtain ⟨b', hfill, hb'⟩ := FixedBuilder.Holds.fillNull hb hm
    simp only [fillNull, hfill]
    exact adds_done rfl hb'
  | boolean b =>
    obtain ⟨b', hfill, hb'⟩ := BooleanBuilder.Holds.fillNull hb hm
    simp only [fillNull, hfill]
    exact adds_done rfl hb'
  | text t b =>
    obtain ⟨b', hfill, hb'⟩ := TextBuilder.Holds.fillNull hb hm
    simp only [fillNull, hfill]
    exact adds_done rfl hb'
  | list b child =>
    obtain ⟨elements, hb, hchild⟩ := hb
    obtain ⟨b', hfill, hb'⟩ := hb.fillNull hm child.type
    simp only [fillNull, hfill]
    exact adds_done rfl ⟨elements, hb', hchild⟩

theorem addColumn_adds {elements : Column} {child : DataType} (htype : b.type = .list child)
    (hb : b.Holds rows) (hc : elements.WellFormed) :
    b.Adds rows [Row.list true elements.rows] (elements.misfit child 0 elements.length)
      (b.addColumn elements) := by
  cases b with
  | list b c =>
    obtain rfl : c.type = child := by simpa [type] using htype
    rw [Column.rows_eq_rowsFrom]
    exact addList_adds hb hc (Nat.le_of_eq (Nat.zero_add _)) true
  | _ => cases htype

/-- Copies of a list are made one by one. The first one shows whether the elements fit. -/
theorem fillList_adds {b : ListBuilder} {child : Builder} {elements : Column}
    (hb : (list b child).Holds rows) (hc : elements.WellFormed) (n : Nat) :
    (list b child).Adds rows (List.replicate n (Row.list true elements.rows))
      (if n = 0 then none else elements.misfit child.type 0 elements.length)
      (fillList b child elements n) := by
  rw [fillList]
  rcases b.checkRoom_cases (mulSat elements.length n) with
    ⟨e, hroom, halloc, hover⟩ | ⟨hroom, -⟩
  · obtain ⟨held, hb, -⟩ := hb
    have hnew : mulSat elements.length n ≤
        (Row.elementsOf (List.replicate n (Row.list true elements.rows))).length := by
      rw [Row.length_elementsOf_replicate, Row.elements, Column.length_rows, Nat.mul_comm]
      exact Nat.min_le_left _ _
    rw [hroom]
    exact Attempt.ends_failed (hb.stops halloc hover hnew _ _)
  rw [hroom]
  by_cases hn : n = 0
  · subst hn
    exact adds_done rfl (by simpa using hb)
  -- A round that goes through shows that the elements fit, so the invariant keeps that as soon as
  -- there is a row more than at first.
  have hrounds := Attempt.ends_copies (t := .list child.type)
    (f := fun b : Builder => b.addColumn elements)
    (H := fun (s : Builder) made => s.type = .list child.type ∧ s.Holds made ∧
      (rows.length < made.length → elements.misfit child.type 0 elements.length = none))
    (fun s made hs => (addColumn_adds hs.1 hs.2.1 hc).mono
      (fun s' hs' => ⟨hs'.1.trans hs.1, hs'.2.1, fun _ => hs'.2.2⟩) fun f hf => hs.1 ▸ hf)
    n ⟨rfl, hb, fun h => absurd h (Nat.lt_irrefl _)⟩
  rw [if_neg hn]
  refine hrounds.mono (fun s hs => ⟨hs.1, hs.2.1, hs.2.2 ?_⟩) fun f hf => hf
  rw [List.length_append, List.length_replicate]
  omega

/-- **Filling with a scalar of the type adds its row that often.** Elements that do not fit are
found with the first copy of them. -/
theorem fill_adds {v : Scalar} (hb : b.Holds rows) (hv : v.WellFormed)
    (hfits : (Value.scalar v).Fits b.type) {n : Nat}
    (hm : v.Bulk → b.type.Affords (rows.length + n)) :
    b.Adds rows (List.replicate n (v.row b.type))
      (if n = 0 then none else (Value.scalar v).misfit b.type) (b.fill v n) := by
  -- Only the elements of a list can be a misfit, so all other scalars have the first case.
  have hflat : (Value.scalar v).misfit b.type = none →
      b.Adds rows (List.replicate n (v.row b.type)) none (b.fill v n) →
      b.Adds rows (List.replicate n (v.row b.type))
        (if n = 0 then none else (Value.scalar v).misfit b.type) (b.fill v n) := by
    intro hnone
    rw [hnone, ite_self]
    exact id
  cases v with
  | null => exact hflat rfl (fillNull_adds hb (hm trivial))
  | fixed u x =>
    cases b with
    | fixed t b =>
      obtain rfl : u = t := DataType.fixed.inj (hfits rfl)
      obtain ⟨b', hfill, hb'⟩ := FixedBuilder.Holds.fillValue hb x (hm trivial)
      apply hflat rfl
      simp only [fill, dif_pos, hfill]
      exact adds_done rfl hb'
    | _ => cases hfits rfl
  | boolean x =>
    cases b with
    | boolean b =>
      obtain ⟨b', hfill, hb'⟩ := BooleanBuilder.Holds.fillValue hb x (hm trivial)
      apply hflat rfl
      rw [fill, hfill]
      exact adds_done rfl hb'
    | _ => cases hfits rfl
  | text u x =>
    cases b with
    | text t b =>
      obtain rfl : u = t := DataType.text.inj (hfits rfl)
      apply hflat rfl
      rw [fill, if_pos rfl]
      cases x with
      | none =>
        obtain ⟨b', hfill, hb'⟩ := TextBuilder.Holds.fillNull hb (hm trivial)
        rw [Option.map_none, TextBuilder.fill, hfill]
        exact adds_done rfl hb'
      | some x => exact adds_map (TextBuilder.Holds.fill hb _ n) (fun _ => rfl) fun _ hs => hs
    | _ => cases hfits rfl
  | list child x =>
    cases b with
    | list b c =>
      obtain rfl : child = c.type := DataType.list.inj (hfits rfl)
      cases x with
      | none => exact hflat rfl (fillNull_adds hb (hm trivial))
      | some elements => exact fillList_adds hb hv n
    | _ => cases hfits rfl

theorem fillNull_of_not_affords (hb : b.Holds rows) {n : Nat}
    (hm : ¬ b.type.Affords (rows.length + n)) : b.fillNull n = .failed b (.fault .tooLarge) := by
  have hlen := hb.length_eq
  cases b with
  | fixed t b =>
    rw [← hlen] at hm
    have hfill : b.fillNull n = .error .tooLarge := b.fill_eq_error (Nat.lt_of_not_le hm) none
    simp only [fillNull, hfill]
    rfl
  | boolean b =>
    rw [← hlen] at hm
    have hfill : b.fillNull n = .error .tooLarge := b.fill_eq_error (Nat.lt_of_not_le hm) none
    simp only [fillNull, hfill]
    rfl
  | text t b =>
    simp only [fillNull, TextBuilder.Holds.fillNull_eq_error hb (Nat.lt_of_not_le hm)]
    rfl
  | list b child =>
    obtain ⟨elements, hb, -⟩ := hb
    simp only [fillNull, hb.fillNull_eq_error (Nat.lt_of_not_le hm)]
    rfl

theorem fill_of_not_affords {v : Scalar} (hb : b.Holds rows) (hfits : (Value.scalar v).Fits b.type)
    (hbulk : v.Bulk) {n : Nat} (hm : ¬ b.type.Affords (rows.length + n)) :
    b.fill v n = .failed b (.fault .tooLarge) := by
  cases v with
  | null => exact fillNull_of_not_affords hb hm
  | fixed u x =>
    cases b with
    | fixed t b =>
      obtain rfl : u = t := DataType.fixed.inj (hfits rfl)
      rw [← hb.length_eq] at hm
      simp only [fill, dif_pos, b.fill_eq_error (Nat.lt_of_not_le hm)]
      rfl
    | _ => cases hfits rfl
  | boolean x =>
    cases b with
    | boolean b =>
      rw [← hb.length_eq] at hm
      rw [fill, b.fill_eq_error (Nat.lt_of_not_le hm)]
      rfl
    | _ => cases hfits rfl
  | text u x =>
    cases x with
    -- A text is filled row by row, so its failure comes after some rows are in; that is not bulk.
    | some x => exact hbulk.elim
    | none =>
      cases b with
      | text t b =>
        obtain rfl : u = t := DataType.text.inj (hfits rfl)
        have hnone := TextBuilder.Holds.fillNull_eq_error hb (Nat.lt_of_not_le hm)
        simp only [fill, if_pos, Option.map_none, TextBuilder.fill, hnone]
        rfl
      | _ => cases hfits rfl
  | list child x =>
    cases x with
    | some elements => exact hbulk.elim
    | none =>
      cases b with
      | list b c => exact fillNull_of_not_affords hb hm
      | _ => cases hfits rfl

/-! ## Values -/

/-- **Taking rows of a value adds them.** -/
theorem take_adds {value : Value} (hb : b.Holds rows) {total : Nat}
    (hv : value.Ready b.type total) {start n : Nat} (hn : 0 < n) (hr : start + n ≤ total)
    (hm : b.type.Affords (rows.length + n)) :
    b.Adds rows ((List.range n).map fun j => value.row b.type (start + j)) (value.misfit b.type)
      (b.take value start n) := by
  cases value with
  | column v =>
    obtain rfl := hv.length v.len rfl
    have hbounds := v.in_bounds
    have hmisfit := Column.misfit_eq_none b.concrete_type (hv.fits rfl) (v.offset + start) n
    have hadd := copy_adds hb hv.wellFormed (show v.offset + start + n ≤ v.column.length by omega)
    rw [hmisfit, v.rowsFrom_eq] at hadd
    exact hadd
  | scalar v =>
    have hrows : ((List.range n).map fun j => (Value.scalar v).row b.type (start + j)) =
        List.replicate n (v.row b.type) := map_range_const _ n
    have hadd := fill_adds hb hv.wellFormed hv.fits fun _ => hm
    rw [if_neg (Nat.ne_of_gt hn)] at hadd
    rwa [hrows]

/-- **Taking one row of a value adds it.** -/
theorem takeRow_adds {value : Value} (hb : b.Holds rows) {total : Nat}
    (hv : value.Ready b.type total) {i : Nat} (hi : i < total)
    (hm : b.type.Affords (rows.length + 1)) :
    b.Adds rows [value.row b.type i] (value.misfit b.type) (b.takeRow value i) := by
  cases value with
  | column v =>
    obtain rfl := hv.length v.len rfl
    have hbounds := v.in_bounds
    have hmisfit := Column.misfit_eq_none b.concrete_type (hv.fits rfl) (v.offset + i) 1
    have hadd := copyRow_adds hb hv.wellFormed (show v.offset + i < v.column.length by omega)
    rw [hmisfit] at hadd
    exact hadd
  | scalar v =>
    have hadd := fill_adds hb hv.wellFormed hv.fits fun _ => hm
    rwa [if_neg Nat.one_ne_zero] at hadd

/-! ## Reservations -/

/-- **A reservation gives an empty builder of the type that affords the rows.** It fails for want
of memory, or because the type has no builder. -/
theorem reserve_spec (type : DataType) (rows hint : Nat) :
    (∃ b, (reserve type rows hint).outcome = .ok b ∧ b.type = type ∧ b.Holds [] ∧
        type.Affords rows) ∨
      ∃ f, (reserve type rows hint).outcome = .error f ∧
        (f.IsAllocation ∨ ¬ type.Concrete ∧
          f = .rejected (.typeMismatch .builder .concrete (some .null))) := by
  induction type generalizing rows hint with
  | null => exact .inr ⟨_, rfl, .inr ⟨fun h => h, rfl⟩⟩
  | boolean =>
    rcases reserve_empty_cases rows with ⟨e, hroom, he⟩ | ⟨hroom, hm⟩
    · refine .inr ⟨.rejected e, ?_, .inl he⟩
      simp only [reserve, BooleanBuilder.reserve, hroom, Logged.outcome_bind]
      rfl
    · refine .inl ⟨boolean .empty, ?_, rfl, BooleanBuilder.holds_empty, hm⟩
      simp only [reserve, BooleanBuilder.reserve, hroom, Logged.outcome_bind]
      rfl
  | fixed t =>
    rcases allocateBuffer_cases .slots rows t.width with ⟨e, hroom, he⟩ | ⟨hroom, hm⟩
    · refine .inr ⟨.rejected e, ?_, .inl he⟩
      simp only [reserve, FixedBuilder.reserve, hroom, Logged.outcome_bind]
      rfl
    · refine .inl ⟨fixed t (.empty t), ?_, rfl, FixedBuilder.holds_empty, hm⟩
      simp only [reserve, FixedBuilder.reserve, hroom, Logged.outcome_bind]
      rfl
  | text t =>
    rcases allocateBuffer_cases .textOffsets (rows + 1) t.offsetWidth with
      ⟨e, hroom, he⟩ | ⟨hroom, hm⟩
    · refine .inr ⟨.rejected e, ?_, .inl he⟩
      simp only [reserve, TextBuilder.reserve, hroom, Logged.outcome_bind]
      rfl
    rcases allocateBuffer_cases .textBytes hint 8 with ⟨e, hbytes, he⟩ | ⟨hbytes, -⟩
    · refine .inr ⟨.rejected e, ?_, .inl he⟩
      simp only [reserve, TextBuilder.reserve, hroom, hbytes, Logged.outcome_bind]
      rfl
    · refine .inl ⟨text t (.empty t), ?_, rfl, TextBuilder.holds_empty, hm⟩
      simp only [reserve, TextBuilder.reserve, hroom, hbytes, Logged.outcome_bind]
      rfl
  | list child ih =>
    rcases allocateBuffer_cases .listOffsets (rows + 1) listOffsetWidth with
      ⟨e, hroom, he⟩ | ⟨hroom, hm⟩
    · refine .inr ⟨.rejected e, ?_, .inl he⟩
      simp only [reserve, hroom, Logged.outcome_bind]
      rfl
    -- The hint of a list is the number of its elements, so it is the rows of the child.
    rcases ih hint 0 with ⟨b, hb, htype, hholds, -⟩ | ⟨f, hf, hcause⟩
    · refine .inl ⟨list .empty b, ?_, by rw [Builder.type, htype],
        ⟨[], ListBuilder.holds_empty, hholds⟩, hm⟩
      simp only [reserve, hroom, Logged.outcome_bind, hb]
      rfl
    · refine .inr ⟨f, ?_, hcause⟩
      simp only [reserve, hroom, Logged.outcome_bind, hf]
      rfl

theorem reserve_eq_ok {type : DataType} {rows hint : Nat} {b : Builder}
    (h : (reserve type rows hint).outcome = .ok b) :
    b.type = type ∧ b.Holds [] ∧ type.Affords rows := by
  rcases reserve_spec type rows hint with ⟨_, hb, hempty⟩ | ⟨f, hf, -⟩
  · cases h.symm.trans hb
    exact hempty
  · cases h.symm.trans hf

end Builder

/-! ## Scalars as columns -/

/-- **A scalar repeats to the canonical column of its row.** The untyped null has no column. -/
theorem Scalar.toColumn_spec {s : Scalar} (hs : s.WellFormed) {n : Nat} {out : Column}
    (h : (s.toColumn n).outcome = .ok out) :
    s ≠ .null ∧ out.Canonical ∧ out.type = s.type ∧
      out.rows = List.replicate n (s.row s.type) := by
  by_cases hnull : s = .null
  · rw [toColumn, if_pos hnull] at h
    cases h
  rw [toColumn, if_neg hnull] at h
  obtain ⟨b, hreserve, h⟩ := Logged.outcome_bind_eq_ok.1 h
  obtain ⟨htype, hholds, hm⟩ := Builder.reserve_eq_ok hreserve
  rw [← htype] at hm ⊢
  -- The reservation affords all the copies, so only a misfit among the elements is left to fail.
  have hadd := Builder.fill_adds hholds hs (fun _ => htype.symm) (n := n)
    fun _ => by rwa [List.length_nil, Nat.zero_add]
  obtain ⟨b', hfill, h⟩ := Logged.outcome_bind_eq_ok.1 h
  rcases hadd.toExcept with ⟨_, hfill', htype', hholds', -⟩ | ⟨f, hfill', -⟩
  · cases hfill.symm.trans hfill'
    obtain ⟨c, hfinish, hcanonical, hctype, hrows⟩ := hholds'.finish
    rw [hfinish] at h
    cases h
    exact ⟨hnull, hcanonical, hctype.trans htype', hrows⟩
  · exact absurd (hfill.symm.trans hfill') (by simp)

end Columnar
