import Columnar.Builder.Storage
import Columnar.Proofs.Builder.Fixed
import Columnar.Proofs.Column.Room

/-!
# Builders of text columns

A text builder holds rows when its offsets cut its bytes into theirs. Appending checks first that
the total is an offset and that there is memory for it, so offsets never wrap. What can go wrong is
told by the rows that there would be, and named by `Failure.Stops`.
-/

namespace Columnar

/-- The reasons for which appending up to `rows` to a builder of a type may break off: the rejection
of rows that there is no room for, the rejection `misfit` of what does not fit the type, and
otherwise more text than there is memory for, which only wide offsets can count. -/
def Failure.Stops (type : DataType) (rows : List Row) (misfit : Option Rejection) (f : Failure) :
    Prop :=
  f.IsAllocation ∧ ¬ type.Room rows ∨
    match misfit with
    | some e => f = .rejected e
    | none => f = .fault .tooLarge ∧ type.Wide ∧ addressableBytes < Row.textBytesOf rows

theorem Failure.Stops.append {type : DataType} {rows : List Row} {misfit : Option Rejection}
    {f : Failure} (h : f.Stops type rows misfit) (more : List Row) :
    f.Stops type (rows ++ more) misfit := by
  rcases h with ⟨halloc, hroom⟩ | h
  · exact .inl ⟨halloc, fun hmore => hroom hmore.of_append⟩
  · cases misfit with
    | some e => exact .inr h
    | none =>
      rw [Failure.Stops, Row.textBytesOf_append]
      exact .inr ⟨h.1, h.2.1, Nat.lt_of_lt_of_le h.2.2 (Nat.le_add_right _ _)⟩

/-- Rounds that append one row each append copies of it. -/
theorem Attempt.ends_copies {σ : Type} {f : σ → Attempt σ} {H : σ → List Row → Prop} {row : Row}
    {t : DataType} {misfit : Option Rejection}
    (hstep : ∀ s made, H s made →
      (f s).Ends (H · (made ++ [row])) (Failure.Stops t (made ++ [row]) misfit))
    (n : Nat) {s : σ} {rows : List Row} (h : H s rows) :
    (iterate f n s).Ends (H · (rows ++ List.replicate n row))
      (Failure.Stops t (rows ++ List.replicate n row) misfit) := by
  induction n generalizing s rows with
  | zero => exact ends_done (by simpa using h)
  | succ n ih =>
    have hcons : rows ++ List.replicate (n + 1) row =
        rows ++ [row] ++ List.replicate n row := by
      rw [List.replicate_succ, List.append_assoc, List.singleton_append]
    rw [hcons]
    exact Ends.andThen ((hstep s rows h).mono (fun _ hs => hs) fun f hf => hf.append _)
      fun t ht => ih ht

namespace TextBuilder

variable {t : TextType}

/-- The builder's buffers are those of the rows. -/
def Holds (b : TextBuilder t) (rows : List Row) : Prop :=
  ∃ bits parts, b.validity.Tracks bits ∧ bits.length = parts.length ∧ b.offsets.Cuts parts ∧
    b.bytes = parts.flatten ∧ b.bytes.length ≤ addressableBytes ∧
    rows = List.zipWith Row.text bits parts

theorem holds_empty : (empty t).Holds [] :=
  ⟨[], [], ValidityBuilder.tracks_empty, rfl, Offsets.cuts_zero, rfl, Nat.zero_le _, rfl⟩

variable {b : TextBuilder t} {rows : List Row}

theorem Holds.offsets_length (h : b.Holds rows) : b.offsets.length = rows.length + 1 := by
  obtain ⟨bits, parts, -, hlen, hcuts, -, -, rfl⟩ := h
  simp [hcuts.length_eq, hlen]

theorem Holds.length_eq (h : b.Holds rows) : b.length = rows.length := by
  rw [length, Offsets.rows, h.offsets_length, Nat.add_sub_cancel]

theorem Holds.textBytes_eq (h : b.Holds rows) : Row.textBytesOf rows = b.bytes.length := by
  obtain ⟨bits, parts, -, hlen, -, hbytes, -, rfl⟩ := h
  rw [Row.textBytesOf_zipWith_text hlen, hbytes]

theorem Holds.textBytes_le (h : b.Holds rows) : Row.textBytesOf rows ≤ addressableBytes := by
  rw [h.textBytes_eq]
  obtain ⟨-, -, -, -, -, -, hle, -⟩ := h
  exact hle

theorem Holds.room (h : b.Holds rows) : (DataType.text t).Room rows := by
  obtain ⟨bits, parts, -, hlen, hcuts, -, -, rfl⟩ := h
  rw [DataType.Room, Row.textBytesOf_zipWith_text hlen, ← hcuts.toNat_last]
  exact Offsets.toNat_le_greatest _

theorem Holds.offsets_eq (h : b.Holds rows) : b.offsets.map BitVec.toNat =
    (List.range (rows.length + 1)).map fun i => Row.textBytesOf (rows.take i) := by
  obtain ⟨bits, parts, -, hlen, hcuts, -, -, rfl⟩ := h
  have htake : ∀ i, Row.textBytesOf ((List.zipWith Row.text bits parts).take i) =
      (parts.take i).flatten.length := fun i => by
    rw [List.take_zipWith, Row.textBytesOf_zipWith_text (by simp [hlen])]
  simp only [htake, hcuts.map_toNat, List.length_zipWith, hlen, Nat.min_self]

theorem Holds.unique {b' : TextBuilder t} (h : b.Holds rows) (h' : b'.Holds rows) : b = b' := by
  obtain ⟨bits, parts, htracks, hlen, hcuts, hbytes, -, rfl⟩ := h
  obtain ⟨bits', parts', htracks', hlen', hcuts', hbytes', -, hrows⟩ := h'
  obtain ⟨rfl, rfl⟩ := zipWith_inj
    (fun _ _ _ _ h => by cases h; exact ⟨rfl, rfl⟩) hlen hlen' hrows
  exact TextBuilder.ext (hcuts.unique hcuts') (hbytes.trans hbytes'.symm)
    (htracks.unique htracks')

theorem Holds.append (h : b.Holds rows) {offsets : Offsets t.offsetWidth}
    {validity : ValidityBuilder} (more : List Bool) (new : List Bytes)
    (hlen : more.length = new.length)
    (hle : b.bytes.length + new.flatten.length ≤ addressableBytes)
    (ho : ∀ parts : List Bytes, b.bytes = parts.flatten → b.offsets.Cuts parts →
      (b.offsets ++ offsets).Cuts (parts ++ new))
    (hv : ∀ bits, b.validity.Tracks bits → validity.Tracks (bits ++ more)) :
    (TextBuilder.mk (b.offsets ++ offsets) (b.bytes ++ new.flatten) validity).Holds
      (rows ++ List.zipWith Row.text more new) := by
  obtain ⟨bits, parts, htracks, hbits, hcuts, hbytes, -, rfl⟩ := h
  refine ⟨bits ++ more, parts ++ new, hv bits htracks, by simp [hbits, hlen],
    ho parts hbytes hcuts, by simp [hbytes], by simpa using hle, ?_⟩
  exact (List.zipWith_append hbits).symm

theorem checkRoom_eq_error {extra : Nat} {e : Rejection} (h : b.checkRoom extra = .error e) :
    e.IsAllocation ∧ Offsets.greatest t.offsetWidth < b.bytes.length + extra := by
  simp only [checkRoom] at h
  split at h
  · cases h
  · rename_i hroom
    cases h
    exact ⟨trivial, Nat.lt_of_lt_of_le (Nat.lt_of_not_le hroom) (Nat.min_le_left _ _)⟩

/-- Room for more bytes is refused, or there is no memory for them, or the total is an offset. -/
theorem grow_cases (b : TextBuilder t) (extra : Nat) :
    (∃ e, b.checkRoom extra = .error e) ∨
      b.checkRoom extra = .ok () ∧
        (b.requireBytes extra = .error .tooLarge ∧ (DataType.text t).Wide ∧
            addressableBytes < b.bytes.length + extra ∨
          b.requireBytes extra = .ok () ∧ b.bytes.length + extra ≤ addressableBytes ∧
            b.bytes.length + extra ≤ Offsets.greatest t.offsetWidth) := by
  by_cases hroom : addSat b.bytes.length extra ≤ Offsets.greatest t.offsetWidth
  · refine .inr ⟨by simp [checkRoom, hroom], ?_⟩
    by_cases hmem : b.bytes.length + extra ≤ addressableBytes
    · refine .inr ⟨requireBytes_eq_ok hmem, hmem, ?_⟩
      have hmax : addressableBytes ≤ maxSize := by decide
      rwa [addSat, Nat.min_eq_left (Nat.le_trans hmem hmax)] at hroom
    · refine .inl ⟨?_, ?_, Nat.lt_of_not_le hmem⟩
      · simp [requireBytes, Checked.requireBytes, Checked.require, allocate_eq_none, hmem]
      · have hmax : addressableBytes < maxSize := by decide
        rw [addSat] at hroom
        rw [DataType.Wide]
        omega
  · exact .inl ⟨_, if_neg hroom⟩

theorem checkRoom_of_add_rejected {text : Bytes} {valid : Bool} {e : Rejection}
    (h : b.add text valid = .error (.rejected e)) : b.checkRoom text.length = .error e := by
  rcases b.grow_cases text.length with ⟨e', hroom⟩ | ⟨hroom, ⟨hmem, -⟩ | ⟨hmem, -⟩⟩
  · simp only [TextBuilder.add, hroom, Failure.ofRejected, bind, Except.bind] at h
    cases h
    exact hroom
  · simp [TextBuilder.add, hroom, hmem, Failure.ofRejected, Checked.lift, bind, Except.bind] at h
  · simp [TextBuilder.add, hroom, hmem, Failure.ofRejected, Checked.lift, bind, Except.bind, pure,
      Except.pure] at h

theorem checkRoom_eq_ok {extra : Nat} {u : Unit} :
    b.checkRoom extra = .ok u ↔ addSat b.bytes.length extra ≤ Offsets.greatest t.offsetWidth := by
  simp only [checkRoom]
  split <;> simp_all

/-- Where there is room for many texts at once there is room for one more of them after others. -/
theorem checkRoom_of_le {s : TextBuilder t} {size n extra : Nat} {u : Unit}
    (h : b.checkRoom (mulSat size n) = .ok u)
    (hle : s.bytes.length + extra ≤ b.bytes.length + size * n) :
    s.checkRoom extra = .ok () := by
  rw [checkRoom_eq_ok, addSat] at h ⊢
  rw [mulSat] at h
  omega

/-- A refusal of room stops rows with that many bytes more. -/
theorem Holds.stops (h : b.Holds rows) {extra : Nat} {e : Rejection}
    (he : b.checkRoom extra = .error e) {new : List Row} (hnew : extra ≤ Row.textBytesOf new)
    (misfit : Option Rejection) : (Failure.rejected e).Stops (.text t) (rows ++ new) misfit := by
  obtain ⟨halloc, hover⟩ := checkRoom_eq_error he
  refine .inl ⟨halloc, ?_⟩
  rw [DataType.Room, Row.textBytesOf_append, h.textBytes_eq]
  omega

theorem Holds.add (h : b.Holds rows) (text : Bytes) (valid : Bool) :
    (Attempt.of b (b.add text valid)).Ends (·.Holds (rows ++ [Row.text valid text]))
      (Failure.Stops (.text t) (rows ++ [Row.text valid text]) none) := by
  rcases b.grow_cases text.length with
    ⟨e, hroom⟩ | ⟨hroom, ⟨hmem, hwide, hover⟩ | ⟨hmem, hle, hfit⟩⟩
  · refine Attempt.ends_of_error (f := .rejected e) ?_
      (h.stops hroom (by simp [Row.textBytesOf, Row.textBytes]) _)
    simp [TextBuilder.add, hroom, Failure.ofRejected, bind, Except.bind]
  · refine Attempt.ends_of_error ?_ (.inr ⟨rfl, hwide, ?_⟩)
    · simp [TextBuilder.add, hroom, hmem, Failure.ofRejected, Checked.lift, bind, Except.bind]
    · simpa [h.textBytes_eq, Row.textBytesOf, Row.textBytes] using hover
  · refine Attempt.ends_of_ok (t := ⟨b.offsets ++ [BitVec.ofNat _ (b.bytes.length + text.length)],
      b.bytes ++ text, b.validity.add valid⟩) ?_ ?_
    · simp [TextBuilder.add, hroom, hmem, Failure.ofRejected, Checked.lift, bind, Except.bind, pure,
        Except.pure]
    · have := h.append [valid] [text] rfl (by simpa using hle)
        (fun parts hbytes hcuts => hcuts.append_one (by
          rw [Offsets.toNat_ofNat_of_le hfit, hbytes]))
        fun bits hb => hb.add valid
      simpa using this

theorem Holds.copy (h : b.Holds rows) {c : TextColumn t} (hc : c.offsets.Ascend c.bytes.length)
    {offset len : Nat} (hr : offset + len ≤ c.length) :
    (Attempt.of b (b.copy c offset len)).Ends
      (·.Holds (rows ++ (Column.text t c).rowsFrom offset len))
      (Failure.Stops (.text t) (rows ++ (Column.text t c).rowsFrom offset len) none) := by
  by_cases hlen : len = 0
  · subst hlen
    apply Attempt.ends_of_ok rfl
    simpa [Column.rowsFrom] using h
  have hflat := hc.length_flatten_partsFrom hr
  have hsub : (c.offsets.offsetAt (offset + len)).toNat - (c.offsets.offsetAt offset).toNat =
      c.offsets.payload offset len := rfl
  have hpart := hc.bufferPart_eq hr
  have htext : Row.textBytesOf (List.zipWith Row.text (c.validity.bits offset len)
      (c.offsets.partsFrom c.bytes offset len)) = c.offsets.payload offset len := by
    rw [Row.textBytesOf_zipWith_text (by simp), hflat]
  rw [Column.rowsFrom_text]
  -- The texts of the rows are one part of the buffer, so growing by that part is growing by all of
  -- them.
  rcases b.grow_cases (c.offsets.payload offset len) with
    ⟨e, hroom⟩ | ⟨hroom, ⟨hmem, hwide, hover⟩ | ⟨hmem, hle, hfit⟩⟩
  · refine Attempt.ends_of_error (f := .rejected e) ?_ (h.stops hroom (Nat.le_of_eq htext.symm) _)
    simp [TextBuilder.copy, hlen, hc.extent_eq hr, hsub, hroom, Failure.ofRejected, Checked.lift,
      bind, Except.bind]
  · refine Attempt.ends_of_error ?_ (.inr ⟨rfl, hwide, ?_⟩)
    · simp only [TextBuilder.copy, hlen, hc.extent_eq hr, hsub, hroom, hpart, hflat, hmem,
        Failure.ofRejected, Checked.lift, bind, Except.bind, if_false]
    · rw [Row.textBytesOf_append, htext, h.textBytes_eq]
      exact hover
  · refine Attempt.ends_of_ok (t := ⟨b.offsets ++ c.offsets.moved offset len b.offsets.last,
      b.bytes ++ (c.offsets.partsFrom c.bytes offset len).flatten,
      b.validity.copy (c.validity.window offset len) len⟩) ?_ ?_
    · simp only [TextBuilder.copy, hlen, hc.extent_eq hr, hsub, hroom, hpart, hflat, hmem,
        Failure.ofRejected, Checked.lift, bind, Except.bind, pure, Except.pure, if_false]
    · exact h.append _ _ (by simp) (by rwa [hflat])
        (fun parts hbytes hcuts => hcuts.append_moved hc hr (by rwa [← hbytes]))
        fun bits hb => hb.copy c.validity offset len

theorem Holds.copyRow (h : b.Holds rows) {c : TextColumn t} (hc : (Column.text t c).WellFormed)
    {i : Nat} (hi : i < c.length) :
    (Attempt.of b (b.copyRow c i)).Ends (·.Holds (rows ++ [(Column.text t c).row i]))
      (Failure.Stops (.text t) (rows ++ [(Column.text t c).row i]) none) := by
  obtain ⟨hascend, hcovers⟩ := hc
  have hcopy : b.copyRow c i = b.add (c.offsets.part c.bytes i) (c.validity.bit i) := by
    simp [TextBuilder.copyRow, TextColumn.bytesAt_eq hascend hi, Validity.isNull_eq hcovers hi,
      Checked.lift, bind, Except.bind]
  rw [hcopy]
  exact h.add _ _

/-- A window of no rows is not looked at, wherever it lies. -/
theorem copy_past_end (b : TextBuilder t) {c : TextColumn t}
    (hc : c.offsets.Ascend c.bytes.length) {offset len : Nat} (hr : c.length < offset + len) :
    b.copy c offset len = .ok b ∨ ∃ f, b.copy c offset len = .error f := by
  by_cases hlen : len = 0
  · exact .inl (by rw [TextBuilder.copy, if_pos hlen])
  · obtain ⟨f, hextent⟩ := hc.extent_past_end hr
    refine .inr ⟨.fault f, ?_⟩
    rw [TextBuilder.copy, if_neg hlen, hextent]
    rfl

theorem copyRow_past_end (b : TextBuilder t) {c : TextColumn t}
    (hc : c.offsets.Ascend c.bytes.length) {i : Nat} (hi : c.length ≤ i) :
    ∃ f, b.copyRow c i = .error f := by
  obtain ⟨f, hextent⟩ := hc.extent_past_end
    (show c.offsets.rows < i + 1 from Nat.lt_succ_of_le hi)
  refine ⟨.fault f, ?_⟩
  rw [TextBuilder.copyRow, TextColumn.bytesAt, Offsets.range, hextent]
  rfl

theorem Holds.fillNull (h : b.Holds rows) {n : Nat}
    (hm : (rows.length + n + 1) * (t.offsetWidth / 8) ≤ addressableBytes) :
    ∃ b', b.fillNull n = .ok b' ∧ b'.Holds (rows ++ List.replicate n (Row.blank (.text t))) := by
  have hle := h.textBytes_le
  rw [h.textBytes_eq] at hle
  rw [Nat.add_right_comm, ← h.offsets_length] at hm
  refine ⟨⟨b.offsets ++ List.replicate n b.offsets.last, b.bytes, b.validity.addNull n⟩, ?_, ?_⟩
  · simp [TextBuilder.fillNull, requireBytes_eq_ok hm, bind, Except.bind, pure, Except.pure]
  · have := h.append (List.replicate n false) (List.replicate n []) (by simp) (by simpa using hle)
      (fun parts _ hcuts => hcuts.append_empty n) fun bits hb => hb.addNull n
    simpa [Row.blank] using this

theorem Holds.fillNull_eq_error (h : b.Holds rows) {n : Nat}
    (hm : addressableBytes < (rows.length + n + 1) * (t.offsetWidth / 8)) :
    b.fillNull n = .error .tooLarge := by
  rw [Nat.add_right_comm, ← h.offsets_length] at hm
  rw [TextBuilder.fillNull, requireBytes_eq_error hm]
  rfl

theorem Holds.fill (h : b.Holds rows) (text : Bytes) (n : Nat) :
    (b.fill (some text) n).Ends (·.Holds (rows ++ List.replicate n (Row.text true text)))
      (Failure.Stops (.text t) (rows ++ List.replicate n (Row.text true text)) none) := by
  unfold TextBuilder.fill
  simp only
  cases hroom : b.checkRoom (mulSat text.length n) with
  | error e =>
    refine Attempt.ends_failed (h.stops hroom ?_ _)
    rw [Row.textBytesOf_replicate, Nat.mul_comm]
    exact Nat.min_le_left _ _
  | ok u =>
    apply Attempt.ends_copies (H := TextBuilder.Holds) _ n h
    intro s made hs
    exact hs.add text true

/-- Copies of a text for which there is room together are not refused one by one. -/
theorem state_fill_of_rejected (hb : b.Holds rows) {text : Bytes} {n : Nat} {e : Rejection}
    (h : (b.fill (some text) n).failure = some (.rejected e)) :
    (b.fill (some text) n).state = b := by
  simp only [fill] at h ⊢
  cases hroom : b.checkRoom (mulSat text.length n) with
  | error e => rfl
  | ok _ =>
    simp only [hroom] at h
    exfalso
    obtain ⟨m, -, hmade, ⟨hnone, -⟩ | ⟨-, hlt, hround⟩⟩ := Attempt.iterate_cases
      (f := fun b : TextBuilder t => Attempt.of b (b.add text true))
      (fun s => Attempt.allOrNothing_of s _) n b
    · rw [hnone] at h
      cases h
    -- Copy `m + 1` is said to be refused. But the builder holds `m` copies by then, and with one
    -- more the text is still no longer than the whole for which room was found.
    · rw [h] at hround
      generalize (Attempt.iterate _ n b).state = s at hmade hround
      have hs : s.Holds (rows ++ List.replicate m (Row.text true text)) := by
        have hends := Attempt.ends_copies (H := TextBuilder.Holds)
          (fun s made hs => TextBuilder.Holds.add hs text true) m hb
        rwa [hmade] at hends
      have hbytes : s.bytes.length = b.bytes.length + m * text.length := by
        rw [← hs.textBytes_eq, Row.textBytesOf_append, hb.textBytes_eq, Row.textBytesOf_replicate,
          Row.textBytes]
      have hle : s.bytes.length + text.length ≤ b.bytes.length + text.length * n := by
        have := Nat.mul_le_mul_left text.length hlt
        rw [Nat.mul_succ] at this
        rw [hbytes, Nat.mul_comm m]
        omega
      cases hadd : s.add text true with
      | ok s' => simp [hadd, Attempt.of] at hround
      | error f =>
        rw [hadd] at hround
        obtain rfl : f = .rejected e := Option.some.inj hround
        exact absurd (checkRoom_of_add_rejected hadd) (by rw [checkRoom_of_le hroom hle]; simp)

theorem exists_holds_fill (hb : ∃ rows, b.Holds rows) (text : Bytes) (n : Nat) :
    ∃ rows, (b.fill (some text) n).state.Holds rows := by
  rw [TextBuilder.fill]
  cases b.checkRoom (mulSat text.length n) with
  | error e => exact hb
  | ok _ =>
    refine Attempt.state_iterate (P := fun s => ∃ rows, TextBuilder.Holds s rows) ?_ n hb
    rintro s ⟨rows, hs⟩
    have hadd := hs.add text true
    cases hf : (Attempt.of s (s.add text true)).failure with
    | none => exact ⟨_, hadd.state hf⟩
    | some f =>
      rw [Attempt.state_of_failure (by simp [hf])]
      exact ⟨rows, hs⟩

theorem Holds.finish (h : b.Holds rows) :
    ∃ c, b.finish = .ok c ∧ (Column.text t c).Canonical ∧ (Column.text t c).rows = rows := by
  obtain ⟨bits, parts, htracks, hbits, hcuts, hbytes, -, rfl⟩ := h
  obtain ⟨hcanonical, hfinish⟩ := htracks.finish
  have hrows : bits.length = b.offsets.rows := by rw [hcuts.rows_eq, hbits]
  rw [hbits] at hcanonical hfinish
  refine ⟨⟨b.offsets, parts.flatten, b.validity.finish⟩, ?_,
    Column.whole_text hcuts hcanonical hfinish⟩
  simp [TextBuilder.finish, TextColumn.ofParts, htracks.check_finish hrows, hbytes, bind,
    Except.bind, pure, Except.pure]

end TextBuilder

end Columnar
