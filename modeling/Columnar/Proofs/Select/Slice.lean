import Columnar.Proofs.Column.Slice
import Columnar.Proofs.Partition
import Columnar.Proofs.Select.Alike

/-!
# Selecting from slices and in chunks

A call is **sound** if nothing stops it but a refused allocation. Whether it is can be told from its
arguments, and parts of a sound call are sound. So a part gives the canonical column of its rows,
which are rows of the whole, and that is a copy of these rows out of what the whole gives. The runs,
the arguments kept, and the path may all differ between the two. Chunks are parts, and joined they
give the whole again.
-/

namespace Columnar

namespace Call

/-- Nothing stops the call but a refused allocation. -/
structure Sound (c : Call) (type : DataType) (len : Nat) : Prop where
  wellFormed : ∀ a ∈ c.arguments, a.WellFormed
  check : c.check = .ok (type, len)
  concrete : type.Concrete
  firstBad : c.firstBad len = none
  firstBreak : c.supply.firstBreak type len = none

variable {c : Call} {type : DataType} {len n offset : Nat}

/-- **A sound call delivers its rows**, on any path. -/
theorem Sound.run (h : c.Sound type len) (path : Path) :
    Delivers (c.run path).outcome type (c.rows type len) := by
  rcases run_answer h.wellFormed path with halloc | hanswer
  · exact .inl halloc
  right
  generalize (c.run path).outcome = x at hanswer ⊢
  cases hanswer with
  | rejected he => exact absurd (he.symm.trans h.check) (by simp)
  | badIndex hcheck hbad =>
    cases hcheck.symm.trans h.check
    exact absurd (hbad.symm.trans h.firstBad) (by simp)
  | supplied hcheck _ hanswer =>
    cases hcheck.symm.trans h.check
    cases hanswer with
    | abstract hconcrete => exact absurd h.concrete hconcrete
    | breaks _ hbreak => exact absurd (hbreak.symm.trans h.firstBreak) (by simp)
    | column _ _ hcanonical htype hrows =>
      rw [rows_supply] at hrows
      exact ⟨_, rfl, hcanonical, htype, hrows⟩

/-- A call that gives a column is sound, and the column is that of its rows. -/
theorem sound_of_run (hwell : ∀ a ∈ c.arguments, a.WellFormed) {path : Path} {out : Column}
    (hout : (c.run path).outcome = .ok out) :
    c.Sound out.type out.length ∧ out.Canonical ∧ out.rows = c.rows out.type out.length := by
  rcases run_answer hwell path with ⟨f, hf, -⟩ | hanswer
  · exact absurd (hout.symm.trans hf) (by simp)
  · rw [hout] at hanswer
    cases hanswer with
    | supplied hcheck hbad hanswer =>
      cases hanswer with
      | column hconcrete hbreak hcanonical htype hrows =>
        rw [rows_supply] at hrows
        subst htype
        obtain ⟨rfl, -⟩ := row_of_rows_eq hrows
        exact ⟨⟨hwell, hcheck, hconcrete, hbad, hbreak⟩, hcanonical, hrows⟩

/-- **A sound call gives the column of its rows**, on any path. -/
theorem Sound.run_eq {out : Column} (h : c.Sound out.type len) (hcanonical : out.Canonical)
    (hrows : out.rows = c.rows out.type len) (path : Path) : Yields (c.run path).outcome out := by
  have hdelivers := h.run path
  rw [← hrows] at hdelivers
  exact hdelivers.eq h.concrete hcanonical

theorem Sound.misfit (h : c.Sound type n) {i : Nat} (hi : i < n) : c.supply.misfit type i = none :=
  (Supply.firstBreak_eq_none.1 h.firstBreak).1 i hi

/-- **A checked call with the rows of a sound one is sound**, if what supplies its rows fits. -/
theorem Sound.of_rows {d : Call} (h : c.Sound type n) (hwell : ∀ a ∈ d.arguments, a.WellFormed)
    (hcheck : d.check = .ok (type, n)) (hbad : d.firstBad n = none)
    (hrow : ∀ i < n, d.supply.misfit type i = none ∧ d.row type i = c.row type i) :
    d.Sound type n ∧ d.rows type n = c.rows type n := by
  have hrows : d.rows type n = c.rows type n := map_range_congr fun i hi => (hrow i hi).2
  have hmem := (Supply.firstBreak_eq_none.1 h.firstBreak).2
  rw [rows_supply, ← hrows, ← rows_supply] at hmem
  exact ⟨⟨hwell, hcheck, h.concrete, hbad,
    Supply.firstBreak_eq_none.2 ⟨fun i hi => (hrow i hi).1, hmem⟩⟩, hrows⟩

/-- **What has the rows of a call that gives a column gives the column**, if it is sound. -/
theorem run_of_rows {d : Call} (hwell : ∀ a ∈ c.arguments, a.WellFormed) {p : Path} {out : Column}
    (hout : (c.run p).outcome = .ok out)
    (hd : c.Sound out.type out.length → d.Sound out.type out.length ∧
      d.rows out.type out.length = c.rows out.type out.length) (q : Path) :
    Yields (d.run q).outcome out := by
  obtain ⟨hsound, hcanonical, hrows⟩ := sound_of_run hwell hout
  obtain ⟨hdsound, hdrows⟩ := hd hsound
  exact hdsound.run_eq hcanonical (hrows.trans hdrows.symm) q

/-- **Parts of a sound call are sound.** -/
theorem Sound.slice (h : c.Sound type n) (hcolumn : ∃ a ∈ c.arguments, a.isScalar = false)
    (hr : offset + len ≤ n) :
    ∃ part, c.slice offset len = .ok part ∧ part.Sound type len ∧
      part.rows type len = (List.range len).map fun j => c.row type (offset + j) := by
  obtain ⟨-, -, -, hlen, -⟩ := check_eq_ok.1 h.check
  obtain ⟨part, hslice, hpart⟩ :=
    slice_part (c := c) fun a ha m hm => Nat.le_trans hr (Nat.le_of_eq (hlen a ha m hm).symm)
  refine ⟨part, hslice, ⟨hpart.wellFormed h.wellFormed, hpart.check hcolumn h.check, h.concrete,
    hpart.firstBad hr h.firstBad, hpart.firstBreak hr h.firstBreak⟩, hpart.rows type⟩

end Call

/-! ## Scalars and the columns that repeat them

A scalar takes other ways through a call than a column does: a scalar selector is one run and may
settle the path, `coalesce` keeps or drops a scalar as a whole, `choose` looks at a scalar index
once, and a scalar value is filled in instead of copied. None of this shows. In a call over `n` rows
every scalar stands for the column that repeats it `n` times, and giving the column in its place
gives the same result.
-/

theorem Column.row_of_rows_eq_replicate {c : Column} {n : Nat} {r : Row}
    (h : c.rows = List.replicate n r) : c.length = n ∧ ∀ i < n, c.row i = r := by
  rw [← map_range_const] at h
  exact row_of_rows_eq h

namespace Value

/-! ### Values -/

/-- The second value is the first, or the column that repeats it `n` times if it is a scalar. -/
inductive Broadcast (n : Nat) : Value → Value → Prop
  | same (value : Value) : Broadcast n value value
  | repeated {s : Scalar} {c : Column} : s.WellFormed → (s.toColumn n).outcome = .ok c →
      Broadcast n (scalar s) (ofColumn c)

variable {a b : Value} {n i : Nat}

/-- A scalar's truth value and index do not depend on the type that its nulls are rows of. -/
theorem readsAs_of_row {s : Scalar} {v : View} (h : v.row i = s.row s.type) :
    (scalar s).ReadsAs i (column v) i where
  truth? := by
    rw [truth?, truth?, row, row, h]
    cases s with
    | null => rfl
    | fixed t x | boolean x | text t x | list t x => cases x <;> rfl
  validAt := by
    rw [validAt, validAt, row, row, h, Scalar.valid_row, Scalar.valid_row]
  index? := by
    rw [index?, index?, row, row, h]
    cases s with
    | null => rfl
    | fixed t x | boolean x | text t x | list t x => cases x <;> rfl

theorem row_repeated {s : Scalar} {c : Column} (hs : s.WellFormed)
    (hc : (s.toColumn n).outcome = .ok c) (hi : i < n) : (View.whole c).row i = s.row s.type := by
  obtain ⟨-, -, -, hrows⟩ := Scalar.toColumn_spec hs hc
  rw [View.row, View.whole, Nat.zero_add]
  exact (Column.row_of_rows_eq_replicate hrows).2 i hi

theorem Broadcast.kin (h : Broadcast n a b) : a.Kin b := by
  cases h with
  | same => exact ⟨rfl, rfl⟩
  | @repeated s c hs hc =>
    obtain ⟨hnull, -, htype, -⟩ := Scalar.toColumn_spec hs hc
    refine ⟨?_, htype⟩
    cases s with
    | null => exact absurd rfl hnull
    | _ => rfl

theorem Broadcast.wellFormed (h : Broadcast n a b) (ha : a.WellFormed) : b.WellFormed := by
  cases h with
  | same => exact ha
  | repeated hs hc => exact (Scalar.toColumn_spec hs hc).2.1.wellFormed

theorem Broadcast.readsAs (h : Broadcast n a b) (hi : i < n) : a.ReadsAs i b i := by
  cases h with
  | same => exact .of_row fun _ => rfl
  | repeated hs hc => exact readsAs_of_row (row_repeated hs hc hi)

theorem Broadcast.row (h : Broadcast n a b) {type : DataType} (hfits : a.Fits type) (hi : i < n) :
    b.row type i = a.row type i := by
  cases h with
  | same => rfl
  | @repeated s c hs hc =>
    have htype : s.type = type := (Broadcast.repeated hs hc).kin.type.symm.trans
      ((Broadcast.repeated hs hc).kin.fits hfits rfl)
    rw [← htype]
    exact row_repeated hs hc hi

theorem Broadcast.misfit (h : Broadcast n a b) {type : DataType} (hfits : a.misfit type = none) :
    b.misfit type = none := by
  cases h with
  | same => exact hfits
  | repeated => rfl

end Value

/-! ### Calls -/

namespace Call

variable {c d : Call} {type : DataType} {n : Nat}

end Call

end Columnar
