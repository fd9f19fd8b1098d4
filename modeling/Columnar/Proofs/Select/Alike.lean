import Columnar.Proofs.Select.Answer

/-!
# Calls on related arguments

Two calls are **alike** if they make the same selection on arguments that are related one by one. A
check that looks at types only decides the same about both, a row that all arguments read alike is
picked alike, and what supplies it in one call is related to what supplies it in the other. What
the relation is, a copy of a range or a change of form, is left open here.
-/

namespace Columnar

/-! ## Lists side by side -/

section Forall₂

variable {α β : Type} {R : α → β → Prop} {xs : List α} {ys : List β}

theorem exists_mem_of_forall₂ (h : List.Forall₂ R xs ys) {y : β} (hy : y ∈ ys) :
    ∃ x ∈ xs, R x y := by
  induction h with
  | nil => cases hy
  | @cons a b as bs hab _ ih =>
    rcases List.mem_cons.1 hy with rfl | hy
    · exact ⟨a, .head _, hab⟩
    · obtain ⟨x, hx, hxy⟩ := ih hy
      exact ⟨x, .tail _ hx, hxy⟩

theorem getElem?_forall₂ (h : List.Forall₂ R xs ys) (k : Nat) :
    (xs[k]? = none ∧ ys[k]? = none) ∨ ∃ x y, xs[k]? = some x ∧ ys[k]? = some y ∧ R x y := by
  induction h generalizing k with
  | nil => exact .inl ⟨rfl, rfl⟩
  | cons hab _ ih =>
    cases k with
    | zero => exact .inr ⟨_, _, rfl, rfl, hab⟩
    | succ k => simpa using ih k

theorem findIdx?_forall₂ (h : List.Forall₂ R xs ys) {p : α → Bool} {q : β → Bool}
    (hpq : ∀ x y, R x y → q y = p x) : ys.findIdx? q = xs.findIdx? p := by
  induction h with
  | nil => rfl
  | cons hab _ ih => rw [List.findIdx?_cons, List.findIdx?_cons, hpq _ _ hab, ih]

end Forall₂

/-! ## Values -/

namespace Value

/-- The two values have the same type, or both are the untyped null. -/
structure Kin (a b : Value) : Prop where
  typed : b.isTyped = a.isTyped
  type : b.type = a.type

/-- A selector reads at row `j` of the second value what it reads at row `i` of the first. -/
structure ReadsAs (a : Value) (i : Nat) (b : Value) (j : Nat) : Prop where
  truth? : b.truth? j = a.truth? i
  validAt : b.validAt j = a.validAt i
  index? : b.index? j = a.index? i

variable {a b : Value}

theorem Kin.fits {type : DataType} (h : a.Kin b) (hfits : a.Fits type) : b.Fits type := by
  rw [Fits, h.typed, h.type]
  exact hfits

theorem ReadsAs.of_row {i j : Nat} (h : ∀ type, b.row type j = a.row type i) :
    a.ReadsAs i b j where
  truth? := by rw [Value.truth?, h, Value.truth?]
  validAt := by rw [Value.validAt, h, Value.validAt]
  index? := by rw [Value.index?, h, Value.index?]

end Value

theorem Arguments.HaveType.of_kin {R : Value → Value → Prop} {args args' : List Value}
    {type : DataType} (h : HaveType args type) (hargs : List.Forall₂ R args args')
    (hkin : ∀ a b, R a b → a.Kin b) : HaveType args' type := by
  obtain ⟨⟨a, ha, htyped⟩, hfits⟩ := h
  constructor
  · obtain ⟨b, hb, hab⟩ := exists_mem_of_forall₂ hargs.flip ha
    exact ⟨b, hb, (hkin a b hab).typed.trans htyped⟩
  · intro b hb
    obtain ⟨a, ha, hab⟩ := exists_mem_of_forall₂ hargs hb
    exact (hkin a b hab).fits (hfits a ha)

/-! ## Calls -/

namespace Call

/-- The second call makes the selection of the first on arguments that are related to its own. -/
inductive Alike (R : Value → Value → Prop) : Call → Call → Prop
  | ifElse {condition left right condition' left' right' : Value} :
      R condition condition' → R left left' → R right right' →
      Alike R (ifElse condition left right) (ifElse condition' left' right')
  | caseWhen {conditions values conditions' values' : List Value} :
      List.Forall₂ R conditions conditions' → List.Forall₂ R values values' →
      Alike R (caseWhen conditions values) (caseWhen conditions' values')
  | coalesce {args args' : List Value} : List.Forall₂ R args args' →
      Alike R (coalesce args) (coalesce args')
  | choose {indices indices' : Value} {choices choices' : List Value} :
      R indices indices' → List.Forall₂ R choices choices' →
      Alike R (choose indices choices) (choose indices' choices')

section Alike

variable {R : Value → Value → Prop} {c d : Call} {type : DataType} {len n : Nat}
  (h : c.Alike R d)
include h

theorem Alike.selectors : List.Forall₂ R c.selectors d.selectors := by
  cases h with
  | ifElse hcondition => exact .cons hcondition .nil
  | caseWhen hconditions => exact hconditions
  | coalesce => exact .nil
  | choose hindices => exact .cons hindices .nil

theorem Alike.values : List.Forall₂ R c.values d.values := by
  cases h with
  | ifElse _ hleft hright => exact .cons hleft (.cons hright .nil)
  | caseWhen _ hvalues => exact hvalues
  | coalesce hargs => exact hargs
  | choose _ hchoices => exact hchoices

theorem Alike.arguments : List.Forall₂ R c.arguments d.arguments :=
  List.rel_append h.selectors h.values

/-! ## Checks -/

theorem Alike.checkArity (harity : c.checkArity = .ok ()) : d.checkArity = .ok () := by
  cases h with
  | ifElse => rfl
  | caseWhen hconditions hvalues =>
    have harity := CaseWhen.checkArity_eq_ok.1 harity
    rw [← List.length_pos_iff, hconditions.length_eq, hvalues.length_eq] at harity
    exact CaseWhen.checkArity_eq_ok.2 (by rwa [← List.length_pos_iff])
  | coalesce hargs =>
    have harity := Coalesce.checkArity_eq_ok.1 harity
    rw [← List.length_pos_iff, hargs.length_eq] at harity
    exact Coalesce.checkArity_eq_ok.2 (List.length_pos_iff.1 harity)
  | choose _ hchoices =>
    have harity := Choose.checkArity_eq_ok.1 harity
    rw [← List.length_pos_iff, hchoices.length_eq] at harity
    exact Choose.checkArity_eq_ok.2 (List.length_pos_iff.1 harity)

theorem Alike.checkSelectors (hkin : ∀ a b, R a b → a.Kin b)
    (hselectors : c.checkSelectors = .ok ()) : d.checkSelectors = .ok () := by
  -- For any operation, as `ifElse` and `caseWhen` check their conditions under their own names.
  have hconditions : ∀ operation, (∀ a ∈ c.selectors, a.Fits .boolean) →
      Arguments.checkConditions operation d.selectors = .ok () := by
    intro operation hfits
    apply Arguments.checkConditions_eq_ok.2
    intro b hb
    obtain ⟨a, ha, hab⟩ := exists_mem_of_forall₂ h.selectors hb
    exact (hkin a b hab).fits (hfits a ha)
  cases h with
  | coalesce => rfl
  | ifElse | caseWhen => exact hconditions _ (Arguments.checkConditions_eq_ok.1 hselectors)
  | choose hindices =>
    have hinteger := Arguments.checkIndex_eq_ok.1 hselectors
    rw [← (hkin _ _ hindices).typed, ← (hkin _ _ hindices).type] at hinteger
    exact Arguments.checkIndex_eq_ok.2 hinteger

/-- **Arguments of the same types are checked alike**, lengths aside. -/
theorem Alike.check (hkin : ∀ a b, R a b → a.Kin b) (hlen : Arguments.HaveLength d.arguments len)
    (hcheck : c.check = .ok (type, n)) : d.check = .ok (type, len) := by
  obtain ⟨harity, hselectors, htype, -⟩ := check_eq_ok.1 hcheck
  exact check_eq_ok.2 ⟨h.checkArity harity, h.checkSelectors hkin hselectors,
    htype.of_kin h.values hkin, hlen⟩

/-! ## Rows -/

/-- **Where all arguments are read alike, the same value is picked.** -/
theorem Alike.pick {i j : Nat} (hreads : ∀ a b, R a b → a.ReadsAs i b j) :
    d.pick j = c.pick i := by
  cases h with
  | ifElse hcondition => rw [Call.pick, Call.pick, (hreads _ _ hcondition).truth?]
  | caseWhen hconditions hvalues =>
    rw [Call.pick, Call.pick, hconditions.length_eq, hvalues.length_eq,
      findIdx?_forall₂ hconditions fun a b hab => by rw [(hreads a b hab).truth?]]
  | coalesce hargs => exact findIdx?_forall₂ hargs fun a b hab => (hreads a b hab).validAt
  | choose hindices => rw [Call.pick, Call.pick, (hreads _ _ hindices).index?]

/-- What supplies a row of one call is related to what supplies it in the other. -/
theorem Alike.supply {i j : Nat} (hreads : ∀ a b, R a b → a.ReadsAs i b j) :
    (c.supply i = none ∧ d.supply j = none) ∨
      ∃ a b, c.supply i = some a ∧ d.supply j = some b ∧ R a b := by
  rw [Call.supply, Call.supply, h.pick hreads]
  cases c.pick i with
  | none => exact .inl ⟨rfl, rfl⟩
  | some k => exact getElem?_forall₂ h.values k

end Alike

end Call

/-! ## Parts of a call

A call on a range of rows of its arguments is a **part** of the call. Scalars repeat, so they are
parts of themselves. A part is checked like the whole, picks at each of its rows what the whole
picks there, and is supplied by the parts of the values that supply the whole. Nothing that stops
the part would not have stopped the whole.
-/

/-! ### Values -/

/-- The second value stands for `len` rows of the first from `offset` on. -/
structure Value.Part (offset len : Nat) (a b : Value) : Prop where
  typed : b.isTyped = a.isTyped
  type : b.type = a.type
  scalar : b.isScalar = a.isScalar
  length : ∀ n, b.length? = some n → n = len
  wellFormed : a.WellFormed → b.WellFormed
  misfit : ∀ type, b.misfit type = a.misfit type
  row : ∀ type i, b.row type i = a.row type (offset + i)

namespace Value

variable {a b : Value} {offset len : Nat}

theorem slice_part (h : ∀ n, a.length? = some n → offset + len ≤ n) :
    ∃ b, a.slice offset len = .ok b ∧ a.Part offset len b := by
  cases a with
  | scalar s => exact ⟨scalar s, rfl, rfl, rfl, rfl, nofun, id, fun _ => rfl, fun _ _ => rfl⟩
  | column v =>
    have hin : offset + len ≤ v.len := h v.len rfl
    have hbounds : v.offset + offset + len ≤ v.column.length := by
      have := v.in_bounds
      omega
    refine ⟨column ⟨v.column, v.offset + offset, len, hbounds⟩, ?_, rfl, rfl, rfl, ?_, id,
      fun _ => rfl, ?_⟩
    · simp [slice, View.slice, hin, bind, Except.bind, pure, Except.pure]
    · intro n hn
      exact (Option.some.inj hn).symm
    · intro type i
      rw [Value.row, View.row, Nat.add_assoc]
      rfl

theorem Part.kin (h : a.Part offset len b) : a.Kin b := ⟨h.typed, h.type⟩

theorem Part.readsAs (h : a.Part offset len b) (i : Nat) : a.ReadsAs (offset + i) b i :=
  .of_row fun type => h.row type i

end Value

theorem Arguments.haveLength_part {args parts : List Value} {offset len : Nat}
    (hparts : List.Forall₂ (Value.Part offset len) args parts)
    (hcolumn : ∃ a ∈ args, a.isScalar = false) : HaveLength parts len := by
  constructor
  · intro b hb n hn
    obtain ⟨a, -, hpart⟩ := exists_mem_of_forall₂ hparts hb
    exact hpart.length n hn
  · intro hnone
    obtain ⟨a, ha, hcolumn⟩ := hcolumn
    obtain ⟨b, hb, hpart⟩ := exists_mem_of_forall₂ hparts.flip ha
    have hb := hnone b hb
    rw [← hpart.scalar] at hcolumn
    cases b with
    | scalar s => cases hcolumn
    | column v => cases hb

/-! ### Calls -/

namespace Call

/-- The second call is the first on `len` rows from `offset` on. -/
abbrev Part (offset len : Nat) : Call → Call → Prop := Alike (Value.Part offset len)

variable {c d : Call} {type : DataType} {offset len n : Nat}

/-- **Slicing a call's arguments makes a part of it.** -/
theorem slice_part (h : ∀ a ∈ c.arguments, ∀ n, a.length? = some n → offset + len ≤ n) :
    ∃ d, c.slice offset len = .ok d ∧ c.Part offset len d := by
  -- Arguments that come in lists are sliced together.
  have hall : ∀ args : List Value, args ⊆ c.arguments →
      ∃ parts, (args.mapM fun a => a.slice offset len) = .ok parts ∧
        List.Forall₂ (Value.Part offset len) args parts :=
    fun args hargs => mapM_forall₂ fun a ha => Value.slice_part (h a (hargs ha))
  cases c with
  | ifElse condition left right =>
    obtain ⟨condition', hcondition, hconditionPart⟩ := Value.slice_part (h condition (.head _))
    obtain ⟨left', hleft, hleftPart⟩ := Value.slice_part (h left (.tail _ (.head _)))
    obtain ⟨right', hright, hrightPart⟩ := Value.slice_part (h right (.tail _ (.tail _ (.head _))))
    refine ⟨_, ?_, .ifElse hconditionPart hleftPart hrightPart⟩
    simp [slice, hcondition, hleft, hright, bind, Except.bind, pure, Except.pure]
  | caseWhen conditions values =>
    obtain ⟨conditions', hconditions, hconditionParts⟩ :=
      hall conditions (List.subset_append_left _ _)
    obtain ⟨values', hvalues, hvalueParts⟩ := hall values (List.subset_append_right _ _)
    refine ⟨_, ?_, .caseWhen hconditionParts hvalueParts⟩
    simp [slice, hconditions, hvalues, bind, Except.bind, pure, Except.pure]
  | coalesce args =>
    obtain ⟨args', hargs, hargParts⟩ := hall args (List.Subset.refl _)
    refine ⟨_, ?_, .coalesce hargParts⟩
    simp [slice, hargs, bind, Except.bind, pure, Except.pure]
  | choose indices choices =>
    obtain ⟨indices', hindices, hindexPart⟩ := Value.slice_part (h indices (.head _))
    obtain ⟨choices', hchoices, hchoiceParts⟩ := hall choices (List.subset_append_right _ _)
    refine ⟨_, ?_, .choose hindexPart hchoiceParts⟩
    simp [slice, hindices, hchoices, bind, Except.bind, pure, Except.pure]

section Part

variable (h : c.Part offset len d)
include h

theorem Part.wellFormed (hwell : ∀ a ∈ c.arguments, a.WellFormed) :
    ∀ b ∈ d.arguments, b.WellFormed := by
  intro b hb
  obtain ⟨a, ha, hpart⟩ := exists_mem_of_forall₂ h.arguments hb
  exact hpart.wellFormed (hwell a ha)

/-- **A part is checked like the whole**, over its own length. -/
theorem Part.check (hcolumn : ∃ a ∈ c.arguments, a.isScalar = false)
    (hcheck : c.check = .ok (type, n)) : d.check = .ok (type, len) :=
  Alike.check h (fun _ _ hpart => hpart.kin) (Arguments.haveLength_part h.arguments hcolumn) hcheck

/-! ### Rows -/

/-- **What supplies a row of the part is a part of what supplies it in the whole.** -/
theorem Part.supply (i : Nat) :
    (c.supply (offset + i) = none ∧ d.supply i = none) ∨
      ∃ a b, c.supply (offset + i) = some a ∧ d.supply i = some b ∧ a.Part offset len b :=
  Alike.supply h fun _ _ hpart => hpart.readsAs i

theorem Part.row_supply (type : DataType) (i : Nat) :
    d.supply.row type i = c.supply.row type (offset + i) := by
  rw [Supply.row, Supply.row]
  rcases h.supply i with ⟨hc, hd⟩ | ⟨a, b, hc, hd, hpart⟩
  · rw [hc, hd]
    rfl
  · rw [hc, hd]
    exact hpart.row type i

theorem Part.misfit_supply (type : DataType) (i : Nat) :
    d.supply.misfit type i = c.supply.misfit type (offset + i) := by
  rw [Supply.misfit, Supply.misfit]
  rcases h.supply i with ⟨hc, hd⟩ | ⟨a, b, hc, hd, hpart⟩
  · rw [hc, hd]
  · rw [hc, hd]
    exact hpart.misfit type

/-- The rows of a part are those of the whole from `offset` on. -/
theorem Part.rows (type : DataType) :
    d.rows type len = (List.range len).map fun j => c.row type (offset + j) := by
  rw [← rows_supply]
  apply map_range_congr
  intro j _
  rw [h.row_supply, Call.row_supply]

/-! ### What stops a call -/

theorem Part.firstBreak (hr : offset + len ≤ n) (hnone : c.supply.firstBreak type n = none) :
    d.supply.firstBreak type len = none := by
  obtain ⟨hfits, hmem⟩ := Supply.firstBreak_eq_none.1 hnone
  refine Supply.firstBreak_eq_none.2 ⟨fun i hi => ?_, ?_⟩
  · rw [h.misfit_supply]
    exact hfits (offset + i) (by omega)
  · have hmono := c.supply.textBytes_rows_mono type hr
    rw [Supply.rows_add, Row.textBytesOf_append] at hmono
    have hrows : d.supply.rows type len =
        (List.range len).map fun j => c.supply.row type (offset + j) :=
      map_range_congr fun j _ => h.row_supply type j
    rw [hrows]
    omega

theorem Part.firstBad (hr : offset + len ≤ n) (hnone : c.firstBad n = none) :
    d.firstBad len = none := by
  cases h with
  | ifElse | caseWhen | coalesce => rfl
  | @choose indices indices' choices choices' hindices hchoices =>
    apply Choose.firstBad_eq_none
    intro row hrow index hindex
    rw [(hindices.readsAs row).index?] at hindex
    rw [Choose.checkedRows, hindices.scalar] at hrow
    rw [← hchoices.length_eq]
    -- A scalar index is checked once, in the part as in the whole, and a column's at all rows.
    cases indices with
    | scalar s =>
      rw [Value.index?_scalar] at hindex
      exact Choose.inRange_of_firstBad_eq_none hnone Nat.one_pos (by rwa [Value.index?_scalar])
    | column v =>
      have hlt : row < len := hrow
      have hchecked : offset + row < Choose.checkedRows (.column v) n :=
        Nat.lt_of_lt_of_le (Nat.add_lt_add_left hlt offset) hr
      exact Choose.inRange_of_firstBad_eq_none hnone hchecked hindex

end Part

end Call

end Columnar
