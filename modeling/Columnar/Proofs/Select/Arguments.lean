import Columnar.Proofs.Column.Offsets
import Columnar.Proofs.Column.Rows
import Columnar.Proofs.Plan.Execution
import Columnar.Proofs.Plan.Span
import Columnar.Proofs.Segments
import Columnar.Select

/-!
# Reading the arguments of a call

What the checks of a call establish about its arguments, how its selectors are read, and which value
supplies a row.
-/

namespace Columnar

/-! ## What the argument checks establish

The checks go through exactly when the typed values have one type, when the columns have one length,
and when every selector fits what it is asked for. A value **fits** a type if it has that type or is
the untyped null.
-/

/-- The first element of a list is the one value of the list exactly when no other differs. -/
theorem find?_ne_cases {α : Type} [DecidableEq α] (x : α) (others : List α) :
    (∃ y, others.find? (· ≠ x) = some y ∧ ∀ a, ¬ ∀ z ∈ x :: others, z = a) ∨
      others.find? (· ≠ x) = none ∧ ∀ a, (∀ z ∈ x :: others, z = a) ↔ x = a := by
  cases hfind : others.find? (· ≠ x) with
  | some y =>
    have hy : y ≠ x := by simpa using List.find?_some hfind
    refine .inl ⟨y, rfl, fun a hall => hy ?_⟩
    rw [hall y (.tail _ (List.mem_of_find?_eq_some hfind)), hall x (.head _)]
  | none =>
    have hnone : ∀ z ∈ others, z = x := by simpa using hfind
    refine .inr ⟨rfl, fun a => ⟨fun hall => hall x (.head _), ?_⟩⟩
    rintro rfl z hz
    rcases List.mem_cons.1 hz with rfl | hz
    · rfl
    · exact hnone z hz

namespace Arguments

/-- There is a typed value, and all typed values have the type. -/
def HaveType (values : List Value) (type : DataType) : Prop :=
  (∃ value ∈ values, value.isTyped) ∧ ∀ value ∈ values, value.Fits type

/-- All columns have the length, which is one if there is no column. -/
def HaveLength (args : List Value) (len : Nat) : Prop :=
  (∀ value ∈ args, ∀ n, value.length? = some n → n = len) ∧
    ((∀ value ∈ args, value.length? = none) → len = 1)

theorem HaveType.eq_of_subset {values args : List Value} {type type' : DataType}
    (h : HaveType values type) (hargs : HaveType args type') (hsubset : values ⊆ args) :
    type = type' := by
  obtain ⟨⟨a, ha, htyped⟩, hfits⟩ := h
  rw [← hfits a ha htyped, hargs.2 a (hsubset ha) htyped]

theorem haveType_iff {values : List Value} {type : DataType} :
    HaveType values type ↔ (values.filter Value.isTyped).map Value.type ≠ [] ∧
      ∀ t ∈ (values.filter Value.isTyped).map Value.type, t = type := by
  have hne : (values.filter Value.isTyped).map Value.type ≠ [] ↔
      ∃ value ∈ values, value.isTyped := by
    simp [List.filter_eq_nil_iff]
  rw [hne]
  apply and_congr_right
  intro _
  simp only [List.mem_map, List.mem_filter, forall_exists_index, and_imp]
  constructor
  · intro h t value hv htyped ht
    exact ht ▸ h value hv htyped
  · intro h value hv htyped
    exact h _ value hv htyped rfl

theorem haveLength_iff {args : List Value} {len : Nat} :
    HaveLength args len ↔ (∀ n ∈ args.filterMap Value.length?, n = len) ∧
      (args.filterMap Value.length? = [] → len = 1) := by
  simp only [HaveLength, List.mem_filterMap, List.filterMap_eq_nil_iff, forall_exists_index,
    and_imp]
  apply and_congr_left
  intro _
  constructor
  · intro h n value hv hn
    exact h value hv n hn
  · intro h value hv n hn
    exact h n value hv hn

theorem commonType_eq_ok (operation : Operation) {values : List Value} {type : DataType} :
    commonType operation values = .ok type ↔ HaveType values type := by
  rw [haveType_iff]
  rw [commonType]
  cases (values.filter Value.isTyped).map Value.type with
  | nil => simp
  | cons expected others =>
    rcases find?_ne_cases expected others with ⟨found, hfind, hnot⟩ | ⟨hfind, hall⟩
    · simp only [hfind, ne_eq, reduceCtorEq, not_false_eq_true, true_and, false_iff]
      exact hnot type
    · simp only [hfind, hall]
      simp

theorem commonLength_eq_ok (operation : Operation) {args : List Value} {len : Nat} :
    commonLength operation args = .ok len ↔ HaveLength args len := by
  rw [haveLength_iff]
  rw [commonLength]
  cases args.filterMap Value.length? with
  | nil => simp [eq_comm]
  | cons expected others =>
    rcases find?_ne_cases expected others with ⟨found, hfind, hnot⟩ | ⟨hfind, hall⟩
    · simp only [hfind, reduceCtorEq, false_implies, and_true, false_iff]
      exact hnot len
    · simp only [hfind, hall]
      simp

theorem checkConditions_eq_ok {operation : Operation} {conditions : List Value} :
    checkConditions operation conditions = .ok () ↔ ∀ c ∈ conditions, c.Fits .boolean := by
  induction conditions with
  | nil => simp [checkConditions]
  | cons c rest ih =>
    rw [checkConditions, List.forall_mem_cons, ← ih]
    by_cases h : c.isTyped ∧ c.type ≠ .boolean
    · have hnot : ¬ c.Fits .boolean := fun hfits => h.2 (hfits h.1)
      simp [checkCondition, h, hnot, bind, Except.bind]
    · have hfits : c.Fits .boolean := fun htyped => Decidable.of_not_not fun hne => h ⟨htyped, hne⟩
      simp [checkCondition, h, hfits, bind, Except.bind]

theorem checkIndex_eq_ok {operation : Operation} {indices : Value} :
    checkIndex operation indices = .ok () ↔ (indices.isTyped → indices.type.isInteger) := by
  rw [checkIndex]
  by_cases h : indices.isTyped ∧ !indices.type.isInteger
  · simp_all
  · simp_all

end Arguments

/-! ### Calls -/

namespace Call

variable {c : Call} {type : DataType} {len : Nat}

/-- What the check of a call establishes. -/
theorem check_eq_ok : c.check = .ok (type, len) ↔
    c.checkArity = .ok () ∧ c.checkSelectors = .ok () ∧ Arguments.HaveType c.values type ∧
      Arguments.HaveLength c.arguments len := by
  rw [← Arguments.commonType_eq_ok c.operation,
    ← Arguments.commonLength_eq_ok c.operation]
  rw [check]
  simp only [bind_eq_ok, pure, Except.pure, Except.ok.injEq, Prod.mk.injEq]
  constructor
  · rintro ⟨_, harity, _, hselectors, type', htype, len', hlen, rfl, rfl⟩
    exact ⟨harity, hselectors, htype, hlen⟩
  · rintro ⟨harity, hselectors, htype, hlen⟩
    exact ⟨(), harity, (), hselectors, type, htype, len, hlen, rfl, rfl⟩

end Call

/-! ## Reading selectors

Selectors are read in two ways, a row at a time and by runs over the whole window. Both say what the
**rows** of the argument say. A value is read at rows that it has; a scalar has all of them.
-/

theorem Validity.elim_window (v : Validity) (offset len i : Nat) :
    (v.window offset len).elim true (fun w => w.bit i) = v.bit (offset + i) := by
  cases v <;> rfl

theorem Truth.ofBits_eq (valid value : Bool) :
    Truth.ofBits valid value = .ofOption (if valid then some value else none) := by
  cases valid <;> cases value <;> rfl

namespace Value

variable {value : Value} {i len : Nat}

/-- The value has row `i`: it is a scalar, or a column that is long enough. -/
def Has (value : Value) (i : Nat) : Prop := ∀ n, value.length? = some n → i < n

/-! ### Truth values -/

theorem boolean_column {v : View} (h : (column v).Fits .boolean) :
    ∃ c, v.column = .boolean c := by
  have htype : v.column.type = .boolean := h rfl
  cases hc : v.column with
  | boolean c => exact ⟨c, rfl⟩
  | _ =>
    rw [hc] at htype
    cases htype

theorem truth?_scalar (s : Scalar) (i : Nat) : (scalar s).truth? i = s.asBoolean? := by
  cases s with
  | null => rfl
  | fixed _ v | boolean v | text _ v | list _ v => cases v <;> rfl

theorem truth?_column {v : View} {c : BooleanColumn} (hc : v.column = .boolean c) (i : Nat) :
    (column v).truth? i =
      if c.validity.bit (v.offset + i) then some (c.values.bit (v.offset + i)) else none := by
  rw [truth?, row, View.row, hc, Column.row]
  cases c.validity.bit (v.offset + i) <;> rfl

/-- **A boolean selector is read row by row as its rows say.** -/
theorem readTruth_eq (hfits : value.Fits .boolean) (hwell : value.WellFormed) (hi : value.Has i) :
    value.readTruth i = .ok (value.truth? i) := by
  cases value with
  | scalar s => rw [readTruth, truth?_scalar]
  | column v =>
    obtain ⟨c, hc⟩ := boolean_column hfits
    have hbounds := v.in_bounds
    have hcovers := Column.WellFormed.covers hwell
    rw [hc] at hbounds hcovers
    have hlt := hi v.len rfl
    have hrow : v.offset + i < c.length := Nat.lt_of_lt_of_le (Nat.add_lt_add_left hlt _) hbounds
    rw [truth?_column hc, readTruth, hc]
    exact BooleanColumn.get_eq hcovers hrow

/-- One run over all rows covers what has one outcome. -/
theorem covers_constant {outcome : Truth} {f : Nat → Truth} (h : ∀ i < len, outcome = f i) :
    Run.Covers 0 len f (Run.constant len outcome) :=
  ⟨0, Nat.le_refl _, Segment.tile_merge_single len outcome, Segment.reads_merge_single h⟩

/-- **The runs of a boolean selector cover its truth values.** -/
theorem truthRuns_covers (hfits : value.Fits .boolean)
    (hlen : ∀ n, value.length? = some n → n = len) :
    ∃ runs, value.truthRuns len = .ok runs ∧
      Run.Covers 0 len (fun i => .ofOption (value.truth? i)) runs := by
  cases value with
  | scalar s =>
    exact ⟨_, rfl, covers_constant fun i _ => by rw [truth?_scalar]⟩
  | column v =>
    obtain ⟨c, hc⟩ := boolean_column hfits
    obtain rfl := hlen v.len rfl
    refine ⟨Run.ofColumn (c.window v.offset v.len) (c.validity.window v.offset v.len), ?_, 0,
      Nat.le_refl _, Run.tile_ofColumn (c.window v.offset v.len) _, ?_⟩
    · rw [truthRuns, hc, Column.asBoolean]
      rfl
    · have hread := Run.reads_ofColumn (c.window v.offset v.len) (c.validity.window v.offset v.len)
      have hoc : Run.outcomeAt (c.window v.offset v.len) (c.validity.window v.offset v.len) =
          fun i => .ofOption ((column v).truth? i) := by
        funext i
        rw [Run.outcomeAt, Validity.elim_window, truth?_column hc]
        exact Truth.ofBits_eq _ _
      rwa [hoc] at hread

/-! ### Validity -/

theorem validAt_scalar (s : Scalar) (i : Nat) : (scalar s).validAt i = s.isValid :=
  Scalar.valid_row .null s

theorem valid_row (value : Value) (type : DataType) (i : Nat) :
    (value.row type i).valid = value.validAt i := by
  cases value with
  | column v => rfl
  | scalar s => exact (Scalar.valid_row type s).trans (validAt_scalar s i).symm

theorem validAt_column (v : View) {i : Nat} (hi : i < v.len) :
    (column v).validAt i = v.column.validity.bit (v.offset + i) := by
  have hbounds := v.in_bounds
  exact Column.valid_row_of_lt (show v.offset + i < v.column.length by omega)

/-- **Nulls are read row by row as the rows say.** -/
theorem isNull_eq (hwell : value.WellFormed) (hi : value.Has i) :
    value.isNull i = .ok !value.validAt i := by
  cases value with
  | scalar s => rw [isNull, validAt_scalar, Scalar.isNull]
  | column v =>
    have hlt := hi v.len rfl
    exact View.isNull_eq hwell hlt

/-- **The runs of a value's validity cover its valid rows.** -/
theorem validRuns_covers (hlen : ∀ n, value.length? = some n → n = len) :
    Run.Covers 0 len (fun i => if value.validAt i then .yes else .no) (value.validRuns len) := by
  cases value with
  | scalar s =>
    apply covers_constant
    intro i _
    rw [validAt_scalar, Scalar.isNull]
    cases s.isValid <;> rfl
  | column v =>
    obtain rfl := hlen v.len rfl
    cases hv : v.column.validity with
    | none =>
      rw [validRuns, View.validity, hv]
      apply covers_constant
      intro i hi
      rw [validAt_column v hi, hv]
      rfl
    | some m =>
      rw [validRuns, View.validity, hv]
      have htile := Run.tile_ofColumn ⟨m, v.offset, v.len⟩ none
      refine ⟨0, Nat.le_refl _, htile, (Run.reads_ofColumn _ _).congr (fun t => htile.bounds) ?_⟩
      intro i _ hi
      rw [validAt_column v hi, hv]
      rfl

/-! ### Null counts -/

theorem nullCount_eq_zero (v : View) :
    v.nullCount = 0 ↔ ∀ i < v.len, (column v).validAt i = true := by
  rw [v.nullCount_eq, List.countP_eq_zero]
  simp [View.rows, validAt, row]

theorem len_le_nullCount (v : View) :
    v.len ≤ v.nullCount ↔ ∀ i < v.len, (column v).validAt i = false := by
  have hlen : v.rows.length = v.len := by simp [View.rows]
  have hle : (v.rows.countP fun r => !r.valid) ≤ v.rows.length := List.countP_le_length
  have hall : v.len ≤ v.nullCount ↔ (v.rows.countP fun r => !r.valid) = v.rows.length := by
    rw [v.nullCount_eq]
    omega
  rw [hall, List.countP_eq_length]
  simp [View.rows, validAt, row]

/-! ### Indices -/

theorem index?_scalar (s : Scalar) (i : Nat) : (scalar s).index? i = s.asIndex? := by
  cases s with
  | null => rfl
  | fixed _ v | boolean v | text _ v | list _ v => cases v <;> rfl

theorem index?_column {v : View} {t : FixedType} {c : FixedColumn t} (hc : v.column = .fixed t c)
    (i : Nat) :
    (column v).index? i =
      if c.validity.bit (v.offset + i) then t.toIndex? (c.slots.getD (v.offset + i) 0)
      else none := by
  rw [index?, row, View.row, hc, Column.row]
  cases c.validity.bit (v.offset + i) <;> rfl

theorem integer_column {v : View} (h : (column v).isTyped → (column v).type.isInteger)
    (hwell : (column v).WellFormed) :
    ∃ t c, v.column = .fixed t c ∧ t.isInteger ∧ c.validity.Covers c.length ∧
      v.offset + v.len ≤ c.length := by
  have hinteger : v.column.type.isInteger := h rfl
  have hbounds := v.in_bounds
  have hcovers := Column.WellFormed.covers hwell
  cases hc : v.column with
  | fixed t c =>
    rw [hc] at hinteger hbounds hcovers
    exact ⟨t, c, rfl, hinteger, hcovers, hbounds⟩
  | _ =>
    rw [hc] at hinteger
    cases hinteger

end Value

/-! ## The supply of a call

A call takes each row from the value that `Call.pick` picks. So its rows are those of a supply, and
a plan of the call is right if it has that supply.
-/

theorem bind_findIdx?_getElem? {α : Type} (p : α → Bool) (xs : List α) :
    (xs.findIdx? p).bind (xs[·]?) = xs.find? p := by
  induction xs with
  | nil => rfl
  | cons x xs ih =>
    rw [List.findIdx?_cons, List.find?_cons, ← ih]
    cases p x with
    | true => rfl
    | false =>
      cases xs.findIdx? p <;> rfl

/-- Steps that all go through have their results side by side with what they were made on. -/
theorem mapM_forall₂ {α β : Type} {f : α → Checked β} {R : α → β → Prop} {xs : List α}
    (h : ∀ x ∈ xs, ∃ y, f x = .ok y ∧ R x y) :
    ∃ ys, xs.mapM f = .ok ys ∧ List.Forall₂ R xs ys := by
  induction xs with
  | nil => exact ⟨[], rfl, .nil⟩
  | cons x xs ih =>
    obtain ⟨y, hy, hxy⟩ := h x (.head _)
    obtain ⟨ys, hys, hrest⟩ := ih fun z hz => h z (.tail _ hz)
    refine ⟨y :: ys, ?_, .cons hxy hrest⟩
    simp [List.mapM_cons, hy, hys, bind, Except.bind, pure, Except.pure]

theorem Plan.names_findIdx? (p : Value → Bool) (values : List Value) :
    Plan.Names values (values.findIdx? p) (values.find? p) := by
  rw [← bind_findIdx?_getElem?]
  cases h : values.findIdx? p with
  | none => rfl
  | some k =>
    have hk := (List.findIdx?_eq_some_iff_findIdx_eq.1 h).1
    exact ⟨values[k], List.getElem?_eq_getElem hk, List.getElem?_eq_getElem hk⟩

namespace Call

variable {c : Call} {type : DataType} {len : Nat}

/-- The value that supplies each row of the call. -/
def supply (c : Call) : Supply := fun i => (c.pick i).bind (c.values[·]?)

theorem row_supply (c : Call) (type : DataType) (i : Nat) : c.supply.row type i = c.row type i := by
  unfold Supply.row supply Call.row
  cases (c.pick i).bind (c.values[·]?) <;> rfl

theorem rows_supply (c : Call) (type : DataType) (len : Nat) :
    c.supply.rows type len = c.rows type len :=
  map_range_congr fun i _ => c.row_supply type i

theorem names_supply {i : Nat} (h : ∀ k, c.pick i = some k → k < c.values.length) :
    Plan.Names c.values (c.pick i) (c.supply i) := by
  rw [supply]
  cases hpick : c.pick i with
  | none => rfl
  | some k =>
    have hk := h k hpick
    exact ⟨c.values[k], List.getElem?_eq_getElem hk, List.getElem?_eq_getElem hk⟩

theorem mem_values_of_supply {i : Nat} {value : Value} (h : c.supply i = some value) :
    value ∈ c.values := by
  obtain ⟨k, -, hk⟩ := Option.bind_eq_some_iff.1 h
  exact List.mem_of_getElem? hk

/-- **The values of a checked call are ready to supply its rows.** -/
theorem ready_supply (hwell : ∀ a ∈ c.arguments, a.WellFormed)
    (hcheck : c.check = .ok (type, len)) : c.supply.Ready type len := by
  obtain ⟨-, -, htype, hlen⟩ := check_eq_ok.1 hcheck
  intro i _ value hvalue
  have hmem := mem_values_of_supply hvalue
  have harg : value ∈ c.arguments := List.mem_append_right _ hmem
  exact ⟨hwell value harg, htype.2 value hmem, hlen.1 value harg⟩

end Call

end Columnar
