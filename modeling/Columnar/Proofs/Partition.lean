import Columnar.Proofs.Builder.Basic
import Columnar.Proofs.Builder.Fill
import Columnar.Select

/-!
# Chunks, one after the other

If every chunk delivers its rows, the partitioned call delivers all of them. The chunks' columns are
copied one after the other into one builder, so it does not show where one ended: offsets are moved
behind those that are there, and a chunk without nulls is filled with valid rows once another chunk
has made the mask.

Nothing makes a chunk deliver its rows. What several chunks deliver is counted when it is joined, so
**a wrong total is an error**. What a range of one chunk delivers is not joined and not counted.
-/

namespace Columnar

theorem Failure.IsAllocation.exists_rejected {f : Failure} (h : f.IsAllocation) :
    ∃ e : Rejection, f = .rejected e ∧ e.IsAllocation := by
  cases f with
  | rejected e => exact ⟨e, rfl, h⟩
  | fault f => exact h.elim

namespace Partition

variable {type : DataType} {size len : Nat} {f : Nat → Nat → Logged Column} {row : Nat → Row}

/-- Copying columns one after the other adds all their rows, if there is memory for their text. It
is rejected if one of them does not fit, or for want of memory. -/
theorem forEach_copy_adds {parts : List Column} {b : Builder} {rows : List Row} (hb : b.Holds rows)
    (hparts : ∀ part ∈ parts, part.WellFormed)
    (hmem : Row.textBytesOf (rows ++ parts.flatMap Column.rows) ≤ addressableBytes) :
    (Attempt.forEach (fun b part => b.copy part 0 part.length) parts b).Ends
      (fun s => s.type = b.type ∧ s.Holds (rows ++ parts.flatMap Column.rows))
      fun f => f.IsAllocation ∨
        ∃ part ∈ parts, ∃ e, part.misfit b.type 0 part.length = some e ∧ f = .rejected e := by
  induction parts generalizing b rows with
  | nil => exact Attempt.ends_done ⟨rfl, by simpa using hb⟩
  | cons part parts ih =>
    have hall : 0 + part.length ≤ part.length := Nat.le_of_eq (Nat.zero_add _)
    have hcopy := Builder.copy_adds hb (hparts part (.head _)) hall
    rw [← Column.rows_eq_rowsFrom] at hcopy
    rw [List.flatMap_cons, ← List.append_assoc] at hmem ⊢
    refine Attempt.Ends.andThen (P := fun s => s.type = b.type ∧ s.Holds (rows ++ part.rows))
      (hcopy.mono (fun s hs => ⟨hs.1, hs.2.1⟩) fun f hf => ?stop) fun s ⟨hs, hholds⟩ => ?rest
    case stop =>
      rcases hf with ⟨halloc, -⟩ | hf
      · exact .inl halloc
      cases hmisfit : part.misfit b.type 0 part.length with
      | some e =>
        rw [hmisfit] at hf
        exact .inr ⟨part, .head _, e, hmisfit, hf⟩
      | none =>
        -- Too much text up to here would be too much in all.
        rw [hmisfit] at hf
        rw [Row.textBytesOf_append] at hmem
        exact absurd hf.2.2 (by omega)
    case rest =>
      refine (ih hholds (fun other hother => hparts other (.tail _ hother)) hmem).mono
        (fun u hu => ⟨hu.1.trans hs, hu.2⟩) fun f hf => ?_
      rw [hs] at hf
      exact hf.imp_right fun ⟨other, hother, h⟩ => ⟨other, .tail _ hother, h⟩

theorem outcome_join (first : Column) (rest : List Column) (len : Nat) :
    ∃ payload, (join (first :: rest) len).outcome =
      (Builder.reserve first.type len payload).outcome >>= fun b =>
        (Attempt.forEach (fun b part => b.copy part 0 part.length) (first :: rest) b).toExcept >>=
          fun s => if s.length = len then s.finish.lift
            else .error (.rejected (.lengthMismatch .partition len s.length)) := by
  refine ⟨sumSat ((first :: rest).map fun part => (Value.ofColumn part).payload 0 part.length), ?_⟩
  simp only [join, Logged.outcome_bind, apply_ite Logged.outcome]
  rfl

theorem forEach_copy_counts {b : Builder} {n : Nat} (h : b.Counts n) (parts : List Column) :
    (Attempt.forEach (fun b part => b.copy part 0 part.length) parts b).Ends
      (·.Counts (n + (parts.flatMap Column.rows).length)) fun _ => True := by
  induction parts generalizing b n with
  | nil => exact Attempt.ends_done h
  | cons part parts ih =>
    rw [List.flatMap_cons, List.length_append, Column.length_rows, ← Nat.add_assoc]
    exact (h.copy part 0 part.length).andThen fun s hs => ih hs

/-- **What columns are joined to has the rows that were asked for, and so do they.** -/
theorem join_counts {parts : List Column} {out : Column} (hne : parts ≠ [])
    (h : (join parts len).outcome = .ok out) :
    out.length = len ∧ (parts.flatMap Column.rows).length = len := by
  cases parts with
  | nil => exact absurd rfl hne
  | cons first rest =>
    obtain ⟨payload, hjoin⟩ := outcome_join first rest len
    rw [hjoin] at h
    obtain ⟨b, hreserve, h⟩ := bind_eq_ok.1 h
    obtain ⟨s, hadd, h⟩ := bind_eq_ok.1 h
    have hcounts : b.Counts 0 := (Builder.reserve_eq_ok hreserve).2.1.counts
    -- Only the number is known of the rows, since nothing is said about the columns.
    have htotal : s.length = ((first :: rest).flatMap Column.rows).length := by
      rcases (forEach_copy_counts hcounts (first :: rest)).toExcept with
        ⟨_, hs, htotal⟩ | ⟨f, hf, -⟩
      · cases hadd.symm.trans hs
        rw [htotal.length_eq, Nat.zero_add]
      · cases hadd.symm.trans hf
    split at h
    · rename_i hlen
      exact ⟨(Builder.length_of_finish (Checked.lift_eq_ok.1 h)).trans hlen, htotal.symm.trans hlen⟩
    · cases h

/-- A rejection of columns of `total` rows in all that are joined to `len`: the number is wrong, or
the columns cannot be put into one. -/
def Refusal (len total : Nat) (e : Rejection) : Prop :=
  e = .lengthMismatch .partition len total ∨ e.IsAllocation ∨
    ∃ wanted found, e = .typeMismatch .builder wanted (some found)

/-- **Columns whose rows do not add up to what was asked for are rejected**, if they are well-formed
and there is memory for their text. -/
theorem join_rejects {parts : List Column} (hne : parts ≠ [])
    (hparts : ∀ part ∈ parts, part.WellFormed)
    (hmem : Row.textBytesOf (parts.flatMap Column.rows) ≤ addressableBytes)
    (hlen : (parts.flatMap Column.rows).length ≠ len) :
    ∃ e, (join parts len).outcome = .error (.rejected e) ∧
      Refusal len (parts.flatMap Column.rows).length e := by
  cases parts with
  | nil => exact absurd rfl hne
  | cons first rest =>
    obtain ⟨payload, hjoin⟩ := outcome_join first rest len
    rw [hjoin]
    rcases Builder.reserve_spec first.type len payload with
      ⟨b, hb, -, hholds, -⟩ | ⟨f, hf, hcause⟩
    · rw [hb, ok_bind]
      rcases (forEach_copy_adds hholds hparts (by simpa using hmem)).toExcept with
        ⟨s, hadd, -, hrows⟩ | ⟨f, hadd, hcause⟩
      -- All columns were copied, so it is the check of the total that fails.
      · have hslen : s.length = ((first :: rest).flatMap Column.rows).length := hrows.length_eq
        rw [hadd, ok_bind, hslen, if_neg hlen]
        exact ⟨_, rfl, .inl rfl⟩
      · rw [hadd]
        rcases hcause with halloc | ⟨part, -, e, hmisfit, rfl⟩
        · obtain ⟨e, rfl, halloc⟩ := halloc.exists_rejected
          exact ⟨e, rfl, .inr (.inl halloc)⟩
        · obtain ⟨wanted, found, rfl⟩ := Column.misfit_eq_some hmisfit
          exact ⟨_, rfl, .inr (.inr ⟨_, _, rfl⟩)⟩
    · rw [hf]
      rcases hcause with halloc | ⟨-, rfl⟩
      · obtain ⟨e, rfl, halloc⟩ := halloc.exists_rejected
        exact ⟨e, rfl, .inr (.inl halloc)⟩
      · exact ⟨_, rfl, .inr (.inr ⟨_, _, rfl⟩)⟩

theorem length_results {ps : List Piece} {parts : List Column}
    (h : (results f ps).outcome = .ok parts) : parts.length = ps.length := by
  induction ps generalizing parts with
  | nil =>
    cases h
    rfl
  | cons p ps ih =>
    obtain ⟨part, -, h⟩ := Logged.outcome_bind_eq_ok.1 h
    obtain ⟨rest, hrest, h⟩ := Logged.outcome_bind_eq_ok.1 h
    cases h
    rw [List.length_cons, List.length_cons, ih hrest]

theorem results_ne_nil (hsize : 0 < size) (hlen : size < len) {parts : List Column}
    (h : (results f (pieces size len)).outcome = .ok parts) : parts ≠ [] := by
  rintro rfl
  obtain ⟨p, hp, -⟩ := exists_piece hsize (Nat.zero_lt_of_lt hlen)
  rw [List.length_eq_zero_iff.1 (length_results h).symm] at hp
  exact absurd hp List.not_mem_nil

end Partition

theorem outcome_chunked_of_le {size len : Nat} (hsize : 0 < size) (hlen : len ≤ size)
    (f : Nat → Nat → Logged Column) : (chunked len size f).outcome = (f 0 len).outcome := by
  rw [chunked, if_neg (Nat.ne_of_gt hsize), if_pos hlen]

theorem outcome_chunked {size len : Nat} (hsize : 0 < size) (hlen : size < len)
    (f : Nat → Nat → Logged Column) :
    (chunked len size f).outcome =
      (Partition.results f (pieces size len)).outcome >>= fun parts =>
        (Partition.join parts len).outcome := by
  rw [chunked, if_neg (Nat.ne_of_gt hsize), if_neg (Nat.not_le_of_lt hlen),
    Logged.outcome_bind_of_ok (show (Logged.report _).outcome = .ok () from rfl),
    Logged.outcome_bind]

/-- **A partitioned call delivers the rows that it was called for exactly if a range of one chunk
does.** Results of several chunks that do not add up are an error, and if they are well-formed and
there is memory for their text, it is a rejection. -/
theorem chunked_counts {size len : Nat} (hsize : 0 < size) (f : Nat → Nat → Logged Column) :
    ((∀ out, (chunked len size f).outcome = .ok out → out.length = len) ↔
      (len ≤ size → ∀ out, (f 0 len).outcome = .ok out → out.length = len)) ∧
    (size < len → ∀ parts, (Partition.results f (pieces size len)).outcome = .ok parts →
      (parts.flatMap Column.rows).length ≠ len →
        (∃ e, (chunked len size f).outcome = .error e) ∧
        ((∀ part ∈ parts, part.WellFormed) →
          Row.textBytesOf (parts.flatMap Column.rows) ≤ addressableBytes →
          ∃ e, (chunked len size f).outcome = .error (.rejected e) ∧
            Partition.Refusal len (parts.flatMap Column.rows).length e)) := by
  constructor
  case left =>
    constructor
    · intro h hle out hout
      exact h out ((outcome_chunked_of_le hsize hle f).trans hout)
    · intro h out hout
      by_cases hle : len ≤ size
      · exact h hle out ((outcome_chunked_of_le hsize hle f).symm.trans hout)
      · have hlt := Nat.lt_of_not_le hle
        rw [outcome_chunked hsize hlt] at hout
        obtain ⟨parts, hparts, hout⟩ := bind_eq_ok.1 hout
        exact (Partition.join_counts (Partition.results_ne_nil hsize hlt hparts) hout).1
  case right =>
    intro hlt parts hparts htotal
    -- A single chunk would go unchecked. Here there are several, and they are joined.
    have hne := Partition.results_ne_nil hsize hlt hparts
    rw [outcome_chunked hsize hlt, hparts, ok_bind]
    refine ⟨?_, fun hwell hmem => Partition.join_rejects hne hwell hmem htotal⟩
    cases hjoin : (Partition.join parts len).outcome with
    | error e => exact ⟨e, rfl⟩
    | ok out => exact absurd (Partition.join_counts hne hjoin).2 htotal

/-- Two chunks of one row each do not make three rows. -/
theorem chunked_counts_short :
    let part : Column := .fixed .int32 ⟨[1], none⟩
    ∃ e, (chunked 3 2 fun _ _ => .result part).outcome = .error (.rejected e) ∧
      Partition.Refusal 3 2 e := by
  intro part
  have hcounts := (@chunked_counts 2 3 (by decide) fun _ _ => .result part).2
    (by decide) [part, part] rfl (by decide)
  refine hcounts.2 (fun other hother => ?_) (by decide)
  have hpart : other = part := by simpa using hother
  exact hpart ▸ trivial

/-- A single chunk of one row passes for three rows. -/
theorem chunked_returns_short :
    let out : Column := .fixed .int32 ⟨[1], none⟩
    (chunked 3 5 fun _ _ => .result out).outcome = .ok out ∧ out.length ≠ 3 := by
  intro out
  exact ⟨rfl, by decide⟩

end Columnar
