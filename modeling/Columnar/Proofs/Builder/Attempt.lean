import Columnar.Failure

/-!
# How attempts end

`a.Ends P F` says that the attempt went through to a state with `P`, or broke off for a reason with
`F`. Loops of attempts carry an invariant that is indexed by the rounds made so far, and break off
only as one of their rounds does. An attempt that is **all or nothing** leaves the state as it was
when it breaks off. Other attempts leave what their last round leaves.
-/

namespace Columnar

namespace Attempt

variable {σ τ α : Type}

/-- The attempt goes through to a state with `P`, or breaks off with `F`. -/
def Ends (a : Attempt σ) (P : σ → Prop) (F : Failure → Prop) : Prop :=
  match a.failure with
  | none => P a.state
  | some f => F f

theorem ends_done {s : σ} {P : σ → Prop} {F : Failure → Prop} (h : P s) : (done s).Ends P F := h

theorem ends_failed {s : σ} {f : Failure} {P : σ → Prop} {F : Failure → Prop} (h : F f) :
    (failed s f).Ends P F := h

theorem ends_of_ok {s t : σ} {x : Except Failure σ} {P : σ → Prop} {F : Failure → Prop}
    (hx : x = .ok t) (h : P t) : (of s x).Ends P F := by
  subst hx
  exact h

theorem ends_of_error {s : σ} {f : Failure} {x : Except Failure σ} {P : σ → Prop}
    {F : Failure → Prop} (hx : x = .error f) (h : F f) : (of s x).Ends P F := by
  subst hx
  exact h

theorem ends_of {s : σ} {x : Except Failure σ} {P : σ → Prop} (h : ∀ t, x = .ok t → P t) :
    (of s x).Ends P fun _ => True := by
  cases x with
  | ok t => exact h t rfl
  | error f => trivial

theorem Ends.mono {a : Attempt σ} {P Q : σ → Prop} {F G : Failure → Prop} (h : a.Ends P F)
    (hP : ∀ s, P s → Q s) (hF : ∀ f, F f → G f) : a.Ends Q G := by
  unfold Ends at h ⊢
  cases hf : a.failure with
  | none =>
    rw [hf] at h
    exact hP _ h
  | some f =>
    rw [hf] at h
    exact hF _ h

theorem Ends.andThen {a : Attempt σ} {g : σ → Attempt σ} {P Q : σ → Prop} {F : Failure → Prop}
    (h : a.Ends P F) (hg : ∀ s, P s → (g s).Ends Q F) : (a.andThen g).Ends Q F := by
  rw [Ends] at h
  rw [Attempt.andThen]
  cases hf : a.failure with
  | none =>
    rw [hf] at h
    exact hg _ h
  | some f =>
    rw [hf] at h
    simpa [Ends, hf] using h

theorem Ends.map {a : Attempt σ} {g : σ → τ} {P : τ → Prop} {F : Failure → Prop}
    (h : a.Ends (fun s => P (g s)) F) : (a.map g).Ends P F := by
  unfold Ends at h ⊢
  rw [failure_map, state_map]
  exact h

theorem Ends.state {a : Attempt σ} {P : σ → Prop} {F : Failure → Prop} (h : a.Ends P F)
    (hf : a.failure = none) : P a.state := by
  rw [Ends, hf] at h
  exact h

theorem Ends.toExcept {a : Attempt σ} {P : σ → Prop} {F : Failure → Prop} (h : a.Ends P F) :
    (∃ s, a.toExcept = .ok s ∧ P s) ∨ ∃ f, a.toExcept = .error f ∧ F f := by
  rw [Ends] at h
  rw [Attempt.toExcept]
  cases hf : a.failure with
  | none =>
    rw [hf] at h
    exact .inl ⟨_, rfl, h⟩
  | some f =>
    rw [hf] at h
    exact .inr ⟨_, rfl, h⟩

/-- Rounds over the numbers below `n`, each of which carries the invariant on. -/
theorem ends_forEach_range {f : σ → Nat → Attempt σ} {P : Nat → σ → Prop} {F : Failure → Prop}
    {n : Nat} (hstep : ∀ k < n, ∀ s, P k s → (f s k).Ends (P (k + 1)) F) {s : σ} (h : P 0 s) :
    (forEach f (List.range n) s).Ends (P n) F := by
  have hfrom : ∀ m k, k + m = n → ∀ s, P k s →
      (forEach f (List.range' k m) s).Ends (P n) F := by
    intro m
    induction m with
    | zero =>
      intro k hk s hs
      obtain rfl : k = n := hk
      exact hs
    | succ m ih =>
      intro k hk s hs
      exact (hstep k (by omega) s hs).andThen fun t ht => ih (k + 1) (by omega) t ht
  rw [List.range_eq_range']
  exact hfrom n 0 (by omega) s h

/-! ## Results -/

/-- The state that the attempt comes to, if it goes through. -/
def result (a : Attempt σ) : Option σ := a.toExcept.toOption

theorem result_eq_some {a : Attempt σ} {s : σ} :
    a.result = some s ↔ a.failure = none ∧ a.state = s := by
  rw [result, toExcept]
  cases a.failure <;> simp [Except.toOption]

theorem result_eq_none {a : Attempt σ} : a.result = none ↔ a.failure ≠ none := by
  rw [result, toExcept]
  cases a.failure <;> simp [Except.toOption]

theorem failure_andThen_eq_none {a : Attempt σ} {g : σ → Attempt σ} :
    (a.andThen g).failure = none ↔ a.failure = none ∧ (g a.state).failure = none := by
  rw [andThen]
  cases h : a.failure with
  | none => simp
  | some f => simp [h]

theorem andThen_done (a : Attempt σ) : a.andThen done = a := by
  rw [andThen]
  cases h : a.failure with
  | none => exact Attempt.ext rfl h.symm
  | some f => rfl

theorem state_andThen {a : Attempt σ} (g : σ → Attempt σ) (h : a.failure = none) :
    (a.andThen g).state = (g a.state).state := by
  rw [andThen, h]

/-! ## What is left -/

/-- If the attempt at a change of `s` breaks off, it leaves `s` as it was. -/
def AllOrNothing (s : σ) (a : Attempt σ) : Prop := a.failure ≠ none → a.state = s

theorem allOrNothing_done (s t : σ) : (done t).AllOrNothing s := fun h => absurd rfl h

theorem allOrNothing_failed (s : σ) (f : Failure) : (failed s f).AllOrNothing s := fun _ => rfl

theorem allOrNothing_of (s : σ) (x : Except Failure σ) : (of s x).AllOrNothing s :=
  state_of_failure

/-- Rounds keep what each of them keeps, whether they go through or not. -/
theorem state_iterate {f : σ → Attempt σ} {P : σ → Prop} (hstep : ∀ s, P s → P (f s).state)
    (n : Nat) {s : σ} (h : P s) : P (iterate f n s).state := by
  induction n generalizing s with
  | zero => exact h
  | succ n ih =>
    rw [iterate, andThen]
    cases (f s).failure with
    | none => exact ih (hstep s h)
    | some f => exact hstep s h

/-- Rounds each of which is all or nothing leave what the rounds that went through have made. The
round that broke off, if one did, breaks off on what is left. -/
theorem iterate_cases {f : σ → Attempt σ} (hall : ∀ s, (f s).AllOrNothing s) (n : Nat) (s : σ) :
    ∃ m ≤ n, iterate f m s = done (iterate f n s).state ∧
      ((iterate f n s).failure = none ∧ m = n ∨
        (iterate f n s).failure ≠ none ∧ m < n ∧
          (f (iterate f n s).state).failure = (iterate f n s).failure) := by
  induction n generalizing s with
  | zero => exact ⟨0, Nat.le_refl 0, rfl, .inl ⟨rfl, rfl⟩⟩
  | succ n ih =>
    rw [iterate]
    cases hf : (f s).failure with
    | none =>
      have hthen : ∀ k, (f s).andThen (iterate f k) = iterate f k (f s).state := fun k => by
        rw [andThen, hf]
      obtain ⟨m, hm, hmade, hend⟩ := ih (f s).state
      rw [hthen]
      refine ⟨m + 1, Nat.succ_le_succ hm, ?_, ?_⟩
      · rw [iterate, hthen, hmade]
      · rcases hend with ⟨hnone, rfl⟩ | ⟨hfail, hlt, hround⟩
        · exact .inl ⟨hnone, rfl⟩
        · exact .inr ⟨hfail, Nat.succ_lt_succ hlt, hround⟩
    | some e =>
      have hthen : (f s).andThen (iterate f n) = f s := by rw [andThen, hf]
      -- The round that breaks off made nothing, so the state is the one that it started from.
      have hleft : (f s).state = s := hall s (by simp [hf])
      rw [hthen, hleft]
      exact ⟨0, Nat.zero_le _, rfl, .inr ⟨by simp [hf], Nat.succ_pos n, rfl⟩⟩

/-- Rounds that break off leave the state as it was exactly if the first one breaks off. Otherwise
they leave what fewer rounds make. -/
theorem iterate_unchanged_iff {f : σ → Attempt σ} (hall : ∀ s, (f s).AllOrNothing s) {n : Nat}
    {s : σ} (hfail : (iterate f n s).failure ≠ none) :
    ((iterate f n s).state = s ↔ (f s).failure ≠ none) ∧
      ((f s).failure = none → ∃ m, 0 < m ∧ m < n ∧ iterate f m s = done (iterate f n s).state) := by
  obtain ⟨m, -, hmade, ⟨hnone, -⟩ | ⟨-, hlt, hround⟩⟩ := iterate_cases hall n s
  · exact absurd hnone hfail
  cases m with
  | zero =>
    have hleft : s = (iterate f n s).state := congrArg Attempt.state hmade
    have hfirst : (f s).failure ≠ none := by
      rw [← hleft] at hround
      rwa [hround]
    exact ⟨⟨fun _ => hfirst, fun _ => hleft.symm⟩, fun h => absurd h hfirst⟩
  | succ m =>
    have hfirst : (f s).failure = none :=
      (failure_andThen_eq_none.1 (congrArg Attempt.failure hmade)).1
    have hne : (iterate f n s).state ≠ s := by
      intro hleft
      rw [hleft, hfirst] at hround
      exact hfail hround.symm
    exact ⟨⟨fun h => absurd h hne, fun h => absurd hfirst h⟩,
      fun _ => ⟨m + 1, Nat.succ_pos m, hlt, hmade⟩⟩

end Attempt

end Columnar
