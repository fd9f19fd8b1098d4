import Columnar.Builder.Basic
import Columnar.Proofs.Builder.Text

/-!
# Builders of list rows

The rows of a growing list column hold rows over **elements**, the rows that the child holds: the
offsets cut the elements into the rows' lists. Room is checked before anything grows, so offsets
never wrap.
-/

namespace Columnar

namespace ListBuilder

/-- The offsets and the validity are those of the rows, whose lists put together are `elements`. -/
def Holds (b : ListBuilder) (rows elements : List Row) : Prop :=
  ∃ bits parts, b.validity.Tracks bits ∧ bits.length = parts.length ∧ b.offsets.Cuts parts ∧
    elements = parts.flatten ∧ rows = List.zipWith Row.list bits parts

theorem holds_empty : empty.Holds [] [] :=
  ⟨[], [], ValidityBuilder.tracks_empty, rfl, Offsets.cuts_zero, rfl, rfl⟩

variable {b : ListBuilder} {rows elements : List Row}

theorem Holds.offsets_length (h : b.Holds rows elements) : b.offsets.length = rows.length + 1 := by
  obtain ⟨bits, parts, -, hlen, hcuts, -, rfl⟩ := h
  simp [hcuts.length_eq, hlen]

theorem Holds.length_eq (h : b.Holds rows elements) : b.length = rows.length := by
  rw [length, Offsets.rows, h.offsets_length, Nat.add_sub_cancel]

theorem Holds.textBytes_eq (h : b.Holds rows elements) :
    Row.textBytesOf rows = Row.textBytesOf elements := by
  obtain ⟨bits, parts, -, hlen, -, rfl, rfl⟩ := h
  exact Row.textBytesOf_zipWith_list hlen

theorem Holds.elementsOf_eq (h : b.Holds rows elements) : Row.elementsOf rows = elements := by
  obtain ⟨bits, parts, -, hlen, -, rfl, rfl⟩ := h
  exact Row.elementsOf_zipWith_list hlen

theorem Holds.toNat_last (h : b.Holds rows elements) :
    b.offsets.last.toNat = elements.length := by
  obtain ⟨bits, parts, -, -, hcuts, rfl, -⟩ := h
  exact hcuts.toNat_last

/-- The offsets count the elements of the rows before, over unbounded numbers. -/
theorem Holds.offsets_eq (h : b.Holds rows elements) : b.offsets.map BitVec.toNat =
    (List.range (rows.length + 1)).map fun i => (Row.elementsOf (rows.take i)).length := by
  obtain ⟨bits, parts, -, hlen, hcuts, -, rfl⟩ := h
  have htake : ∀ i, Row.elementsOf ((List.zipWith Row.list bits parts).take i) =
      (parts.take i).flatten := fun i => by
    rw [List.take_zipWith, Row.elementsOf_zipWith_list (by simp [hlen])]
  simp only [htake, hcuts.map_toNat, List.length_zipWith, hlen, Nat.min_self]

theorem Holds.length_le (h : b.Holds rows elements) :
    elements.length ≤ Offsets.greatest listOffsetWidth := by
  rw [← h.toNat_last]
  exact Offsets.toNat_le_greatest _

theorem Holds.unique {b' : ListBuilder} {elements' : List Row} (h : b.Holds rows elements)
    (h' : b'.Holds rows elements') : b = b' ∧ elements = elements' := by
  obtain ⟨bits, parts, htracks, hlen, hcuts, rfl, rfl⟩ := h
  obtain ⟨bits', parts', htracks', hlen', hcuts', rfl, hrows⟩ := h'
  obtain ⟨rfl, rfl⟩ := zipWith_inj
    (fun _ _ _ _ h => by cases h; exact ⟨rfl, rfl⟩) hlen hlen' hrows
  exact ⟨ListBuilder.ext (hcuts.unique hcuts') (htracks.unique htracks'), rfl⟩

theorem Holds.append (h : b.Holds rows elements) {offsets : Offsets listOffsetWidth}
    {validity : ValidityBuilder} (more : List Bool) (new : List (List Row))
    (hlen : more.length = new.length)
    (ho : ∀ parts : List (List Row), elements = parts.flatten → b.offsets.Cuts parts →
      (b.offsets ++ offsets).Cuts (parts ++ new))
    (hv : ∀ bits, b.validity.Tracks bits → validity.Tracks (bits ++ more)) :
    (ListBuilder.mk (b.offsets ++ offsets) validity).Holds
      (rows ++ List.zipWith Row.list more new) (elements ++ new.flatten) := by
  obtain ⟨bits, parts, htracks, hbits, hcuts, helements, rfl⟩ := h
  refine ⟨bits ++ more, parts ++ new, hv bits htracks, by simp [hbits, hlen],
    ho parts helements hcuts, by simp [helements], ?_⟩
  exact (List.zipWith_append hbits).symm

theorem checkRoom_cases (b : ListBuilder) (extra : Nat) :
    (∃ e, b.checkRoom extra = .error e ∧ e.IsAllocation ∧
        Offsets.greatest listOffsetWidth < b.offsets.last.toNat + extra) ∨
      b.checkRoom extra = .ok () ∧
        b.offsets.last.toNat + extra ≤ Offsets.greatest listOffsetWidth := by
  by_cases hroom : addSat b.offsets.last.toNat extra ≤ Offsets.greatest listOffsetWidth
  · refine .inr ⟨by simp [checkRoom, hroom], ?_⟩
    have hmax : Offsets.greatest listOffsetWidth < maxSize := by decide
    rw [addSat] at hroom
    omega
  · exact .inl ⟨_, if_neg hroom, trivial,
      Nat.lt_of_lt_of_le (Nat.lt_of_not_le hroom) (Nat.min_le_left _ _)⟩

/-- Room for many copies of a list is room for all their elements. -/
theorem checkRoom_mulSat_eq_ok {size n : Nat} :
    b.checkRoom (mulSat size n) = .ok () ↔
      b.offsets.last.toNat + size * n ≤ Offsets.greatest listOffsetWidth := by
  have hmax : Offsets.greatest listOffsetWidth < maxSize := by decide
  simp only [checkRoom]
  split
  · rename_i hroom
    rw [addSat, mulSat] at hroom
    exact ⟨fun _ => by omega, fun _ => rfl⟩
  · rename_i hroom
    rw [addSat, mulSat] at hroom
    exact ⟨fun h => (by cases h), fun h => absurd h (by omega)⟩

/-- A refusal of room stops rows with that many elements more. -/
theorem Holds.stops (h : b.Holds rows elements) {extra : Nat} {e : Rejection}
    (halloc : e.IsAllocation)
    (hover : Offsets.greatest listOffsetWidth < b.offsets.last.toNat + extra) {new : List Row}
    (hnew : extra ≤ (Row.elementsOf new).length) (child : DataType) (misfit : Option Rejection) :
    (Failure.rejected e).Stops (.list child) (rows ++ new) misfit := by
  refine .inl ⟨halloc, ?_⟩
  rintro ⟨hroom, -⟩
  rw [Row.elementsOf_append, h.elementsOf_eq, List.length_append] at hroom
  rw [h.toNat_last] at hover
  omega

/-- What stops the elements stops the rows. -/
theorem Holds.stops_of_child (h : b.Holds rows elements) {child : DataType}
    {misfit : Option Rejection} {f : Failure} (hf : f.Stops child elements misfit) :
    f.Stops (.list child) rows misfit := by
  unfold Failure.Stops at hf ⊢
  rw [h.textBytes_eq]
  refine hf.imp_left fun hroom => ⟨hroom.1, fun h' => hroom.2 ?_⟩
  rw [← h.elementsOf_eq]
  exact h'.2

theorem Holds.copy (h : b.Holds rows elements) {source : ListRows} {child : Column}
    (hs : source.offsets.Ascend child.length) {offset len : Nat} (hr : offset + len ≤ source.length)
    (hfit : b.offsets.last.toNat + source.offsets.payload offset len ≤
      Offsets.greatest listOffsetWidth) :
    (b.copy source offset len).Holds (rows ++ (Column.list source child).rowsFrom offset len)
      (elements ++ child.rowsFrom (source.offsets.offsetAt offset).toNat
        (source.offsets.payload offset len)) := by
  have hstart := hs.start_add_payload hr
  have hlimit := hs.le_limit hr
  have hs' : source.offsets.Ascend child.rows.length := by rwa [Column.length_rows]
  rw [h.toNat_last] at hfit
  rw [Column.rowsFrom_list, Column.rowsFrom_eq child (by omega), ← hs'.flatten_partsFrom hr]
  exact h.append _ _ (by simp)
    (fun parts helements hcuts => hcuts.append_moved hs' hr (by rwa [← helements]))
    fun bits hb => hb.copy source.validity offset len

theorem Holds.add (h : b.Holds rows elements) (new : List Row) (valid : Bool)
    (hfit : b.offsets.last.toNat + new.length ≤ Offsets.greatest listOffsetWidth) :
    (b.add new.length valid).Holds (rows ++ [Row.list valid new]) (elements ++ new) := by
  have hnew := Offsets.toNat_ofNat_of_le (Nat.le_trans (Nat.le_add_left _ _) hfit)
  have htotal := Offsets.toNat_ofNat_of_le hfit
  rw [BitVec.toNat_ofNat] at htotal
  have hlast := h.toNat_last
  have := h.append [valid] [new] rfl
    (fun parts helements hcuts => hcuts.append_one
      (o := b.offsets.last + BitVec.ofNat _ new.length) (by
        rw [BitVec.toNat_add, hnew, htotal, hlast, helements]))
    fun bits hb => hb.add valid
  rw [List.flatten_cons, List.flatten_nil, List.append_nil] at this
  exact this

theorem Holds.fillNull (h : b.Holds rows elements) {n : Nat}
    (hm : (rows.length + n + 1) * (listOffsetWidth / 8) ≤ addressableBytes) (child : DataType) :
    ∃ b', b.fillNull n = .ok b' ∧
      b'.Holds (rows ++ List.replicate n (Row.blank (.list child))) elements := by
  rw [Nat.add_right_comm, ← h.offsets_length] at hm
  refine ⟨⟨b.offsets ++ List.replicate n b.offsets.last, b.validity.addNull n⟩, ?_, ?_⟩
  · simp [ListBuilder.fillNull, requireBytes_eq_ok hm, bind, Except.bind, pure, Except.pure]
  · have := h.append (List.replicate n false) (List.replicate n []) (by simp)
      (fun parts _ hcuts => hcuts.append_empty n) fun bits hb => hb.addNull n
    simpa [Row.blank] using this

theorem Holds.fillNull_eq_error (h : b.Holds rows elements) {n : Nat}
    (hm : addressableBytes < (rows.length + n + 1) * (listOffsetWidth / 8)) :
    b.fillNull n = .error .tooLarge := by
  rw [Nat.add_right_comm, ← h.offsets_length] at hm
  rw [ListBuilder.fillNull, requireBytes_eq_error hm]
  rfl

theorem Holds.finish (h : b.Holds rows elements) {child : Column} (hc : child.Canonical)
    (hchild : child.rows = elements) :
    Column.ofLists b.finish child = .ok (.list b.finish child) ∧
      (Column.list b.finish child).Canonical ∧ (Column.list b.finish child).rows = rows := by
  obtain ⟨bits, parts, htracks, hbits, hcuts, rfl, rfl⟩ := h
  obtain ⟨hcanonical, hfinish⟩ := htracks.finish
  have hrows : bits.length = b.offsets.rows := by rw [hcuts.rows_eq, hbits]
  rw [hbits] at hcanonical hfinish
  have hlist := Column.whole_list hcuts hcanonical hfinish hc hchild
  have hascend := hlist.1.1.ascend
  refine ⟨?_, hlist⟩
  simp [Column.ofLists, ListBuilder.finish, ListRows.length, hascend.1, hascend.2.2,
    htracks.check_finish hrows, bind, Except.bind, pure, Except.pure]

end ListBuilder

end Columnar
