import Columnar.Plan
import Columnar.Proofs.Segments
import Mathlib.Data.List.Forall2

/-!
# Merging runs is asking row by row

`Span.ofRuns` asks the conditions once per segment and not once per row. A condition that an earlier
one beats is not asked, so what is left of its runs lags behind. The invariant is that the runs left
of each condition still **cover** the rows to come: they start at or before the current row and tile
the rest. From it the merge never runs out of runs, takes a row at least with each segment, and
**reads at every row the first condition that is true there**.

Runs that tile the rows cover them with what they read themselves. So nothing has to be known of the
runs but that they tile: the plan is the maximal tiling that reads, at each row, the number of the
first list whose run there is true.
-/

namespace Columnar

/-- The runs read `f` from `row` or an earlier row up to `len`. -/
def Run.Covers (row len : Nat) (f : Nat → Truth) (runs : List Run) : Prop :=
  ∃ start ≤ row, Segment.Tile start len runs ∧ Segment.Reads f runs

theorem Run.Covers.mono {row row' len : Nat} {f : Nat → Truth} {runs : List Run}
    (h : Run.Covers row len f runs) (hr : row ≤ row') : Run.Covers row' len f runs := by
  obtain ⟨start, hs, htile, hreads⟩ := h
  exact ⟨start, Nat.le_trans hs hr, htile, hreads⟩

/-- What is left of covering runs at a row begins with the run of that row. -/
theorem Run.Covers.left {row len : Nat} {f : Nat → Truth} {runs : List Run}
    (h : Run.Covers row len f runs) (hr : row < len) :
    ∃ run later, runs.dropWhile (fun r => r.stop ≤ row) = run :: later ∧ row < run.stop ∧
      (∀ i, row ≤ i → i < run.stop → run.value = f i) ∧ Run.Covers row len f (run :: later) := by
  obtain ⟨start, hs, htile, hreads⟩ := h
  obtain ⟨run, later, hdrop, hstart, hstop, hleft⟩ := htile.dropWhile_stop hs hr
  have hread : Segment.Reads f (run :: later) :=
    hdrop ▸ hreads.of_subset (List.dropWhile_sublist _).subset
  refine ⟨run, later, hdrop, hstop, ?_, run.start, hstart, hleft, hread⟩
  intro i hi hlt
  exact (Segment.reads_cons.1 hread).1 i (Nat.le_trans hstart hi) hlt

namespace Span

theorem map_add_findIdx?_cons {α : Type} (p : α → Bool) (x : α) (xs : List α) (k : Nat) :
    ((x :: xs).findIdx? p).map (· + k) =
      if p x then some k else (xs.findIdx? p).map (· + (k + 1)) := by
  rw [List.findIdx?_cons]
  by_cases h : p x = true
  · simp [h]
  · have hcomp : ((· + k) ∘ fun n => n + 1) = (· + (k + 1)) := by
      funext n
      simp only [Function.comp]
      omega
    simp [h, hcomp]

/-- The number of the first condition that is true at row `i`, counted from `k` on, or `fallback`
when none is. -/
def firstYes (fallback : Option Nat) (k : Nat) (conditions : List (Nat → Truth)) (i : Nat) :
    Option Nat :=
  ((conditions.findIdx? fun f => f i = .yes).map (· + k)).or fallback

theorem firstYes_cons_of_yes {fallback : Option Nat} {k i : Nat} {f : Nat → Truth}
    {rest : List (Nat → Truth)} (h : f i = .yes) :
    firstYes fallback k (f :: rest) i = some k := by
  rw [firstYes, map_add_findIdx?_cons, if_pos (decide_eq_true h), Option.some_or]

theorem firstYes_cons_of_not_yes {fallback : Option Nat} {k i : Nat} {f : Nat → Truth}
    {rest : List (Nat → Truth)} (h : f i ≠ .yes) :
    firstYes fallback k (f :: rest) i = firstYes fallback (k + 1) rest i := by
  rw [firstYes, map_add_findIdx?_cons, if_neg (mt of_decide_eq_true h), firstYes]

/-- Asking covering runs about a row gives the first condition that is true there, and a segment of
rows at which it is the same. The runs left still cover. -/
theorem ask_spec {row len : Nat} (fallback : Option Nat) (hr : row < len)
    {conditions : List (Nat → Truth)} {runs : List (List Run)}
    (h : List.Forall₂ (Run.Covers row len) conditions runs) (k limit : Nat) (hlimit : row < limit) :
    ∃ v, ask row fallback k limit runs = .ok v ∧ row < v.stop ∧ v.stop ≤ limit ∧
      List.Forall₂ (Run.Covers row len) conditions v.left ∧
      ∀ i, row ≤ i → i < v.stop → v.source = firstYes fallback k conditions i := by
  induction h generalizing k limit with
  | nil => exact ⟨_, rfl, hlimit, Nat.le_refl _, .nil, fun _ _ _ => rfl⟩
  | @cons f runs conditions others hf hothers ih =>
    obtain ⟨run, later, hdrop, hstop, hread, hleft⟩ := hf.left hr
    have hlt : row < min limit run.stop := by omega
    rw [ask]
    rw [hdrop]
    -- A true run ends the search. Any other leaves the answer to the rest, but not past its own
    -- end.
    by_cases hyes : run.value = .yes
    · refine ⟨⟨some k, min limit run.stop, (run :: later) :: others⟩, by simp [hyes], hlt,
        Nat.min_le_left _ _, .cons hleft hothers, ?_⟩
      intro i hi hin
      have hfi : f i = .yes := by rw [← hread i hi (by simp only at hin; omega), hyes]
      exact (firstYes_cons_of_yes hfi).symm
    · obtain ⟨v, hask, hv, hle, hcovers, hsource⟩ := ih (k + 1) _ hlt
      refine ⟨⟨v.source, v.stop, (run :: later) :: v.left⟩, ?_, hv, by simp only; omega,
        .cons hleft hcovers, ?_⟩
      · simp [hyes, hask, bind, Except.bind, pure, Except.pure]
      · intro i hi hin
        have hfi : f i ≠ .yes := by rwa [← hread i hi (by simp only at hin; omega)]
        rw [firstYes_cons_of_not_yes hfi]
        exact hsource i hi hin

/-- The segments planned from `row` on are a maximal tiling of the rows to come, and read the first
true condition. The steps are enough because each takes a row. -/
theorem segments_spec {len : Nat} (fallback : Option Nat) {conditions : List (Nat → Truth)}
    (steps row : Nat) (runs : List (List Run)) (hrow : row ≤ len) (hsteps : len ≤ row + steps)
    (h : List.Forall₂ (Run.Covers row len) conditions runs) :
    ∃ spans, segments fallback len steps row runs = .ok spans ∧ Segment.Tile row len spans ∧
      Segment.Maximal spans ∧ Segment.Reads (firstYes fallback 0 conditions) spans := by
  induction steps generalizing row runs with
  | zero => exact ⟨[], rfl, Nat.le_antisymm hrow hsteps, trivial, Segment.reads_nil⟩
  | succ steps ih =>
    rw [segments]
    by_cases hr : row < len
    · obtain ⟨v, hask, hv, hle, hcovers, hsource⟩ := ask_spec fallback hr h 0 len hr
      -- The answer holds for a row at least, so one step fewer is enough for the rows behind it.
      have hleft : List.Forall₂ (Run.Covers v.stop len) conditions v.left :=
        hcovers.imp fun _ _ hc => hc.mono (Nat.le_of_lt hv)
      obtain ⟨rest, hrest, htile, hmaximal, hreads⟩ := ih v.stop v.left hle (by omega) hleft
      have hstop : (Segment.mk row (v.stop - row) v.source).stop = v.stop := by
        simp only [Segment.stop]
        omega
      rw [← hstop] at htile
      refine ⟨Segment.cons ⟨row, v.stop - row, v.source⟩ rest, ?_, htile.cons, hmaximal.cons htile,
        ?_⟩
      · simp [hr, hask, hrest, bind, Except.bind, pure, Except.pure]
      · apply hreads.cons
        intro i hi hlt
        simp only [Segment.stop] at hlt
        exact hsource i hi (by omega)
    · rw [if_neg hr]
      exact ⟨[], rfl, by simp only [Segment.Tile]; omega, trivial, Segment.reads_nil⟩

/-- **The plan of covering runs tiles the rows and reads the first true condition at each.** -/
theorem ofRuns_spec {len : Nat} (fallback : Option Nat) {conditions : List (Nat → Truth)}
    {runs : List (List Run)} (h : List.Forall₂ (Run.Covers 0 len) conditions runs) :
    ∃ spans, ofRuns runs len fallback = .ok spans ∧ Segment.Tile 0 len spans ∧
      Segment.Reads (firstYes fallback 0 conditions) spans := by
  obtain ⟨spans, hspans, htile, -, hreads⟩ :=
    segments_spec fallback len 0 runs (Nat.zero_le _) (by omega) h
  exact ⟨spans, hspans, htile, hreads⟩

/-! ## Runs that tile -/

/-- The outcome that runs have at a row, where they have one. -/
def outcomeOf (runs : List Run) (i : Nat) : Truth := (Segment.valueAt? runs i).getD .null

/-- Runs that tile the rows cover them with their own outcomes. -/
theorem covers_outcomeOf {len : Nat} {runs : List (List Run)}
    (h : ∀ list ∈ runs, Segment.Tile 0 len list) :
    List.Forall₂ (Run.Covers 0 len) (runs.map outcomeOf) runs := by
  rw [List.forall₂_map_left_iff, List.forall₂_same]
  intro list hlist
  exact ⟨0, Nat.le_refl 0, h list hlist, (h list hlist).reads_valueAt .null⟩

theorem firstYes_outcomeOf (fallback : Option Nat) (runs : List (List Run)) (i : Nat) :
    firstYes fallback 0 (runs.map outcomeOf) i =
      (runs.findIdx? fun list => Segment.valueAt? list i = some .yes).or fallback := by
  have hyes : ∀ list : List Run, outcomeOf list i = .yes ↔ Segment.valueAt? list i = some .yes := by
    intro list
    rw [outcomeOf]
    cases Segment.valueAt? list i with
    | none => simp
    | some value => simp
  rw [firstYes, List.findIdx?_map]
  simp only [Function.comp_def, hyes, Nat.add_zero, Option.map_id']

/-- **Merging runs is total, exact and maximal.** From any lists of runs each of which tiles the
rows, the merge makes a plan: it never asks a list for a run that is not there, and it has ended
after as many steps as there are rows, so that more of them change nothing. The spans tile the rows,
neighbours have different sources, and the source at each row is the first list whose run there is
true, or the fallback when there is none. -/
theorem ofRuns_exact {len : Nat} {runs : List (List Run)}
    (h : ∀ list ∈ runs, Segment.Tile 0 len list) (fallback : Option Nat) :
    ∃ spans, ofRuns runs len fallback = .ok spans ∧
      (∀ steps, len ≤ steps → segments fallback len steps 0 runs = .ok spans) ∧
      Segment.Tile 0 len spans ∧ Segment.Maximal spans ∧
      ∀ i < len, Segment.valueAt? spans i =
        some ((runs.findIdx? fun list => Segment.valueAt? list i = some .yes).or fallback) := by
  have hcovers := covers_outcomeOf h
  have hplan := fun steps (hsteps : len ≤ steps) =>
    segments_spec fallback steps 0 runs (Nat.zero_le len) (by omega) hcovers
  obtain ⟨spans, hspans, htile, hmaximal, hreads⟩ := hplan len (Nat.le_refl len)
  refine ⟨spans, hspans, fun steps hsteps => ?_, htile, hmaximal, fun i hi => ?_⟩
  -- Any number of steps makes a maximal tiling that reads the same, and there is only one.
  · obtain ⟨spans', hspans', htile', hmaximal', hreads'⟩ := hplan steps hsteps
    rw [hspans', hmaximal'.unique hmaximal htile' htile hreads' hreads]
  · rw [htile.reads_iff.1 hreads i (Nat.zero_le i) hi, firstYes_outcomeOf]

/-- The second list is not asked until the first is over at row 2, and so skips two runs at once. It
is true at row 2, neither is at row 4, and the second is again at row 5. -/
theorem ofRuns_exact_lagging :
    ∃ spans, ofRuns [[⟨0, 2, .yes⟩, ⟨2, 2, .no⟩, ⟨4, 2, .null⟩],
        [⟨0, 1, .no⟩, ⟨1, 1, .null⟩, ⟨2, 1, .yes⟩, ⟨3, 2, .no⟩, ⟨5, 1, .yes⟩]] 6 (some 2) =
          .ok spans ∧
      Segment.Tile 0 6 spans ∧ Segment.Maximal spans ∧ Segment.valueAt? spans 2 = some (some 1) ∧
      Segment.valueAt? spans 4 = some (some 2) ∧ Segment.valueAt? spans 5 = some (some 1) := by
  obtain ⟨spans, hspans, -, htile, hmaximal, hvalue⟩ :=
    @ofRuns_exact 6 [[⟨0, 2, .yes⟩, ⟨2, 2, .no⟩, ⟨4, 2, .null⟩],
      [⟨0, 1, .no⟩, ⟨1, 1, .null⟩, ⟨2, 1, .yes⟩, ⟨3, 2, .no⟩, ⟨5, 1, .yes⟩]]
      (by simp [Segment.Tile, Segment.stop]) (some 2)
  exact ⟨spans, hspans, htile, hmaximal, (hvalue 2 (by decide)).trans (by decide),
    (hvalue 4 (by decide)).trans (by decide), (hvalue 5 (by decide)).trans (by decide)⟩

end Span

end Columnar
