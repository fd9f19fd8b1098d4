import Columnar.Proofs.Select.Arguments

/-!
# The plans of the four selections

Each selection plans in its own way. On either path its plan has the supply that the selectors pick,
or finds an index that names no choice.
-/

namespace Columnar

/-! ## Choosing between two values

The spans of `ifElse` are the runs of the condition with outcomes turned into sides.
-/

namespace Segment

variable {α β : Type}

theorem Tile.map_value (g : α → β) {start stop : Nat} {segments : List (Segment α)}
    (h : Tile start stop segments) :
    Tile start stop (segments.map fun t => ⟨t.start, t.len, g t.value⟩) := by
  induction segments generalizing start with
  | nil => exact h
  | cons t rest ih => exact ⟨h.1, h.2.1, ih h.2.2⟩

theorem Reads.map_value (g : α → β) {f : Nat → α} {segments : List (Segment α)}
    (h : Reads f segments) :
    Reads (fun i => g (f i)) (segments.map fun t => ⟨t.start, t.len, g t.value⟩) := by
  intro t ht i hi hlt
  obtain ⟨u, hu, rfl⟩ := List.mem_map.1 ht
  rw [h u hu i hi hlt]

end Segment

namespace IfElse

theorem side_ofOption (t : Option Bool) :
    side (.ofOption t) = t.map fun b => if b then 0 else 1 := by
  rcases t with _ | _ | _ <;> rfl

variable {condition left right : Value} {len : Nat}

theorem spans_spec (left right : Value) {runs : List Run} (htile : Segment.Tile 0 len runs)
    (hreads : Segment.Reads (fun i => .ofOption (condition.truth? i)) runs) :
    Segment.Tile 0 len (spans runs) ∧
      Segment.Reads ((Call.ifElse condition left right).pick) (spans runs) := by
  have hpick : (Call.ifElse condition left right).pick =
      fun i => side (.ofOption (condition.truth? i)) := by
    funext i
    rw [side_ofOption]
    rfl
  rw [hpick]
  exact ⟨(htile.map_value side).merge, (hreads.map_value side).merge⟩

theorem names (i : Nat) :
    Plan.Names [left, right] ((Call.ifElse condition left right).pick i)
      ((Call.ifElse condition left right).supply i) := by
  apply Call.names_supply
  intro k hk
  have hle : k ≤ 1 := by
    obtain ⟨b, -, rfl⟩ := Option.map_eq_some_iff.1 hk
    cases b <;> decide
  exact Nat.lt_succ_of_le hle

theorem supply_eq (condition left right : Value) (i : Nat) :
    (Call.ifElse condition left right).supply i =
      (condition.truth? i).map fun b => if b then left else right := by
  rw [Call.supply, Call.pick]
  rcases condition.truth? i with _ | _ | _ <;> rfl

/-- **On any path, the plan supplies what the condition picks.** -/
theorem plan_supplies (hfits : condition.Fits .boolean) (hwell : condition.WellFormed)
    (hlen : ∀ n, condition.length? = some n → n = len) (path : Path) :
    ∃ plan, (IfElse.plan condition left right len path).outcome = .ok plan ∧
      plan.Supplies len (Call.ifElse condition left right).supply := by
  obtain ⟨runs, hruns, start, hstart, htile, hreads⟩ := Value.truthRuns_covers hfits hlen
  obtain rfl : start = 0 := Nat.le_zero.1 hstart
  obtain ⟨hspans, hread⟩ := spans_spec left right htile hreads
  -- A scalar is one span on every path. Only a column leaves it to the path how to read the
  -- condition.
  cases condition with
  | scalar s =>
    cases hruns
    refine ⟨.spans [left, right] (spans (Run.constant len (.ofOption s.asBoolean?))), rfl, hspans,
      ?_⟩
    intro t ht i hi hlt
    rw [hread t ht i hi hlt]
    exact names i
  | column v =>
    refine ⟨Plan.of (path.useSpans (spans runs).length len (left.isScalar && right.isScalar))
      [left, right] (spans runs) (source (.column v)), ?_, ?_⟩
    · simp only [plan, hruns, Logged.outcome_bind]
      rfl
    · apply Plan.supplies_of _ hspans hread _ fun i _ => names i
      intro i hi
      have hhas : (Value.column v).Has i := fun n hn => hlen n hn ▸ hi
      simp only [source, Value.readTruth_eq hfits hwell hhas, bind, Except.bind, pure, Except.pure,
        side_ofOption]
      rfl

end IfElse

/-! ## Choosing by the first true condition

The merged runs of `caseWhen` read the first true condition at each row, and so does the search of
the row path.
-/

namespace CaseWhen

variable {conditions values : List Value} {len : Nat}

theorem mapM_truthRuns (hfits : ∀ c ∈ conditions, c.Fits .boolean)
    (hlen : ∀ c ∈ conditions, ∀ n, c.length? = some n → n = len) :
    ∃ runs, (conditions.mapM fun c => c.truthRuns len) = .ok runs ∧
      List.Forall₂ (Run.Covers 0 len) (conditions.map fun c i => .ofOption (c.truth? i)) runs := by
  obtain ⟨runs, hruns, hcovers⟩ :=
    mapM_forall₂ fun c hc => Value.truthRuns_covers (hfits c hc) (hlen c hc)
  exact ⟨runs, hruns, List.forall₂_map_left_iff.2 hcovers⟩

theorem firstYes_conditions (fallback : Option Nat) (i k : Nat) (conditions : List Value) :
    Span.firstYes fallback k (conditions.map fun c i => .ofOption (c.truth? i)) i =
      ((conditions.findIdx? fun c => c.truth? i = some true).map (· + k)).or fallback := by
  have hyes : ∀ t : Option Bool, (Truth.ofOption t = .yes) = (t = some true) := by
    intro t
    rcases t with _ | _ | _ <;> simp [Truth.ofOption]
  simp only [Span.firstYes, List.findIdx?_map, Function.comp_def, hyes]

theorem sourceFrom_eq (fallback : Option Nat) {i : Nat} (k : Nat)
    (hread : ∀ c ∈ conditions, c.readTruth i = .ok (c.truth? i)) :
    sourceFrom fallback i k conditions =
      .ok (((conditions.findIdx? fun c => c.truth? i = some true).map (· + k)).or fallback) := by
  induction conditions generalizing k with
  | nil => rfl
  | cons c rest ih =>
    rw [sourceFrom, hread c (.head _), ih (k + 1) fun d hd => hread d (.tail _ hd),
      Span.map_add_findIdx?_cons]
    by_cases h : c.truth? i = some true
    · simp [h, bind, Except.bind, pure, Except.pure]
    · simp [h, bind, Except.bind]

theorem checkArity_eq_ok : CaseWhen.checkArity conditions values = .ok () ↔
    conditions ≠ [] ∧
      (values.length = conditions.length ∨ values.length = conditions.length + 1) := by
  rw [CaseWhen.checkArity]
  cases conditions with
  | nil => simp
  | cons c rest =>
    rw [if_neg (by simp)]
    by_cases h : values.length = (c :: rest).length ∨ values.length = (c :: rest).length + 1
    · rw [if_pos h]
      exact ⟨fun _ => ⟨List.cons_ne_nil c rest, h⟩, fun _ => rfl⟩
    · rw [if_neg h]
      exact ⟨fun hf => absurd hf (by simp), fun hc => absurd hc.2 h⟩

/-- What is picked is a condition's value, or the default after all of them. -/
theorem pick_lt (harity : CaseWhen.checkArity conditions values = .ok ()) {i k : Nat}
    (h : (Call.caseWhen conditions values).pick i = some k) : k < values.length := by
  obtain ⟨-, hcount⟩ := checkArity_eq_ok.1 harity
  rcases Option.or_eq_some_iff.1 h with hfirst | ⟨-, hotherwise⟩
  · have hk := (List.findIdx?_eq_some_iff_findIdx_eq.1 hfirst).1
    omega
  · split at hotherwise
    · cases hotherwise
      assumption
    · cases hotherwise

/-- The first condition supplies its rows, and the others the rest. -/
theorem supply_cons (c v : Value) (cs vs : List Value) (i : Nat) :
    (Call.caseWhen (c :: cs) (v :: vs)).supply i =
      if c.truth? i = some true then some v else (Call.caseWhen cs vs).supply i := by
  simp only [Call.supply, Call.pick, Call.values, List.findIdx?_cons, List.length_cons]
  by_cases hc : c.truth? i = some true
  · simp [hc]
  · cases cs.findIdx? fun c => c.truth? i = some true with
    | some k => simp [hc]
    | none =>
      by_cases hlen : cs.length < vs.length
      · simp [hc, hlen]
      · simp [hc, hlen]

/-- No condition leaves all rows to the default. -/
theorem supply_nil (vs : List Value) (i : Nat) : (Call.caseWhen [] vs).supply i = vs.head? := by
  cases vs <;> rfl

/-- **On any path, the plan supplies what the conditions pick.** -/
theorem plan_supplies (harity : CaseWhen.checkArity conditions values = .ok ())
    (hfits : ∀ c ∈ conditions, c.Fits .boolean) (hwell : ∀ c ∈ conditions, c.WellFormed)
    (hlen : ∀ c ∈ conditions, ∀ n, c.length? = some n → n = len) (path : Path) :
    ∃ plan, (CaseWhen.plan conditions values len path).outcome = .ok plan ∧
      plan.Supplies len (Call.caseWhen conditions values).supply := by
  have hnames : ∀ i, Plan.Names values ((Call.caseWhen conditions values).pick i)
      ((Call.caseWhen conditions values).supply i) :=
    fun i => Call.names_supply (c := .caseWhen conditions values) fun k => pick_lt harity
  have hsource : ∀ i < len, source conditions values i =
      .ok ((Call.caseWhen conditions values).pick i) := by
    intro i hi
    rw [source, sourceFrom_eq _ 0 fun c hc => Value.readTruth_eq (hfits c hc) (hwell c hc)
      fun n hn => hlen c hc n hn ▸ hi]
    simp [Call.pick, otherwise]
  rw [CaseWhen.plan]
  -- Path `rows` reads the conditions at each row anew. All others merge their runs first.
  by_cases hpath : path = .rows
  · rw [if_pos hpath]
    exact ⟨.rows values (source conditions values), rfl, fun i hi => ⟨_, hsource i hi, hnames i⟩⟩
  · obtain ⟨runs, hruns, hcovers⟩ := mapM_truthRuns hfits hlen
    obtain ⟨spans, hspans, htile, hreads⟩ :=
      Span.ofRuns_spec (otherwise conditions values) hcovers
    have hpick : Span.firstYes (otherwise conditions values) 0
        (conditions.map fun c i => .ofOption (c.truth? i)) =
          (Call.caseWhen conditions values).pick := by
      funext i
      rw [firstYes_conditions]
      simp [Call.pick, otherwise]
    rw [hpick] at hreads
    rw [if_neg hpath]
    refine ⟨Plan.of (path.useSpans spans.length len (values.all Value.isScalar)) values spans
      (source conditions values), ?_, Plan.supplies_of _ htile hreads hsource fun i _ => hnames i⟩
    simp only [hruns, hspans, Logged.ofChecked_ok, Logged.ok_bind, Logged.report_bind]
    rfl

end CaseWhen

/-! ## Choosing the first value that is not null

`coalesce` plans over the arguments that can still supply a row. An argument that is null throughout
is not the first valid one at any row, and one that is valid throughout is never passed over, so
**dropping the rest changes no row**.
-/

namespace Coalesce

variable {args : List Value} {len : Nat}

theorem checkArity_eq_ok : Coalesce.checkArity args = .ok () ↔ args ≠ [] := by
  cases args <;> simp [Coalesce.checkArity]

theorem relevant_subset (args : List Value) : relevant args ⊆ args := by
  induction args with
  | nil => exact List.Subset.refl _
  | cons value rest ih =>
    have hskip := List.subset_cons_of_subset value ih
    cases value with
    | scalar s =>
      rw [relevant]
      split
      · exact hskip
      · exact List.cons_subset_cons _ (List.nil_subset _)
    | column v =>
      rw [relevant]
      split
      · exact List.cons_subset_cons _ (List.nil_subset _)
      · split
        · exact List.cons_subset_cons _ ih
        · exact hskip

/-- **The first valid argument is a relevant one**, at any row. -/
theorem find?_relevant (hlen : ∀ a ∈ args, ∀ n, a.length? = some n → n = len) {i : Nat}
    (hi : i < len) :
    (relevant args).find? (·.validAt i) = args.find? (·.validAt i) := by
  induction args with
  | nil => rfl
  | cons value rest ih =>
    have ih := ih fun a ha => hlen a (.tail _ ha)
    cases value with
    | scalar s =>
      rw [relevant, List.find?_cons (a := Value.scalar s), Value.validAt_scalar, Scalar.isNull]
      cases hs : s.isValid with
      | false => exact ih
      | true => simp [Value.validAt_scalar, hs]
    | column v =>
      have hv : i < v.len := by rwa [hlen _ (.head _) v.len rfl]
      -- A column without nulls ends the list: what follows it is never the first valid argument.
      rw [relevant]
      split
      · rename_i hzero
        have hvalid := (Value.nullCount_eq_zero v).1 hzero i hv
        simp [hvalid]
      · split
        · rw [List.find?_cons, List.find?_cons, ih]
        · rename_i hall
          have hnull := (Value.len_le_nullCount v).1 (Nat.le_of_not_lt hall) i hv
          rw [List.find?_cons, hnull]
          exact ih

theorem supply_eq (args : List Value) (i : Nat) :
    (Call.coalesce args).supply i = args.find? (·.validAt i) :=
  bind_findIdx?_getElem? _ args

theorem map_validRuns (hlen : ∀ a ∈ args, ∀ n, a.length? = some n → n = len) :
    List.Forall₂ (Run.Covers 0 len)
      (args.map fun a i => if a.validAt i then Truth.yes else Truth.no)
      (args.map fun a => a.validRuns len) := by
  induction args with
  | nil => exact .nil
  | cons a rest ih =>
    exact .cons (Value.validRuns_covers (hlen a (.head _))) (ih fun b hb => hlen b (.tail _ hb))

theorem firstYes_arguments (i : Nat) (args : List Value) :
    Span.firstYes none 0 (args.map fun a i => if a.validAt i then Truth.yes else Truth.no) i =
      args.findIdx? (·.validAt i) := by
  simp [Span.firstYes, List.findIdx?_map, Function.comp_def]

theorem sourceFrom_eq {i : Nat} (k : Nat)
    (hread : ∀ a ∈ args, a.isNull i = .ok !a.validAt i) :
    sourceFrom i k args = .ok ((args.findIdx? (·.validAt i)).map (· + k)) := by
  induction args generalizing k with
  | nil => rfl
  | cons a rest ih =>
    rw [sourceFrom, hread a (.head _), ih (k + 1) fun b hb => hread b (.tail _ hb),
      Span.map_add_findIdx?_cons]
    cases a.validAt i <;> rfl

/-- **On any path, the plan over the relevant arguments supplies the first valid of all.** -/
theorem plan_supplies (hwell : ∀ a ∈ args, a.WellFormed)
    (hlen : ∀ a ∈ args, ∀ n, a.length? = some n → n = len) (path : Path) :
    ∃ plan, (Coalesce.plan args len path).outcome = .ok plan ∧
      plan.Supplies len (Call.coalesce args).supply := by
  have hkept := relevant_subset args
  have hnames : ∀ i < len, Plan.Names (relevant args)
      ((relevant args).findIdx? (·.validAt i)) ((Call.coalesce args).supply i) := by
    intro i hi
    -- What is dropped is not the first valid argument, so the plan names a relevant one.
    rw [supply_eq, ← find?_relevant hlen hi]
    exact Plan.names_findIdx? _ _
  have hsource : ∀ i < len, source (relevant args) i =
      .ok ((relevant args).findIdx? (·.validAt i)) := by
    intro i hi
    rw [source, sourceFrom_eq 0 fun a ha => Value.isNull_eq (hwell a (hkept ha))
      fun n hn => hlen a (hkept ha) n hn ▸ hi]
    simp
  rw [Coalesce.plan]
  by_cases hpath : path = .rows
  · simp only [if_pos hpath]
    exact ⟨.rows (relevant args) (source (relevant args)), rfl,
      fun i hi => ⟨_, hsource i hi, hnames i hi⟩⟩
  · obtain ⟨spans, hspans, htile, hreads⟩ :=
      Span.ofRuns_spec none (map_validRuns fun a ha => hlen a (hkept ha))
    have hpick : Span.firstYes none 0
        ((relevant args).map fun a i => if a.validAt i then Truth.yes else Truth.no) =
          fun i => (relevant args).findIdx? (·.validAt i) :=
      funext fun i => firstYes_arguments i (relevant args)
    rw [hpick] at hreads
    refine ⟨Plan.of (path.useSpans spans.length len ((relevant args).all Value.isScalar))
      (relevant args) spans (source (relevant args)), ?_,
      Plan.supplies_of _ htile hreads hsource hnames⟩
    simp only [if_neg hpath, hspans, Logged.outcome_bind]
    rfl

end Coalesce

/-! ## Choosing by index

The indices are checked by one reading of the index column and used by another. Both read the index
that the row of the argument holds. `firstBad` is the rejection of the first row, in order, whose
index names no choice; a scalar index counts as row zero, whether or not there is one.
-/

namespace Choose

/-- The rejection of the index at a row, if there is one and it names no choice. -/
def badAt (indices : Value) (choices row : Nat) : Option Rejection :=
  (indices.index? row).bind fun index =>
    if 0 ≤ index ∧ index < choices then none else some (.indexOutOfBounds row index choices)

/-- The rows whose indices are checked. -/
def checkedRows (indices : Value) (len : Nat) : Nat := if indices.isScalar then 1 else len

/-- The rejection of the first index that names no choice. -/
def firstBad (indices : Value) (len choices : Nat) : Option Rejection :=
  (List.range (checkedRows indices len)).findSome? (badAt indices choices)

variable {indices : Value} {len choices : Nat}

theorem checkArity_eq_ok {values : List Value} :
    Choose.checkArity values = .ok () ↔ values ≠ [] := by
  cases values <;> simp [Choose.checkArity]

theorem named_eq (choices row : Nat) (index : Int) :
    named choices row index =
      if 0 ≤ index ∧ index < choices then .ok index.toNat
      else .error (.indexOutOfBounds row index choices) := rfl

theorem badAt_eq_none {row : Nat} : badAt indices choices row = none ↔
    ∀ index, indices.index? row = some index → 0 ≤ index ∧ index < choices := by
  rw [badAt]
  cases indices.index? row with
  | none => simp
  | some index =>
    by_cases hin : 0 ≤ index ∧ index < choices
    · simp [hin]
    · simp [hin]

theorem inRange_of_firstBad_eq_none (h : firstBad indices len choices = none) {row : Nat}
    (hrow : row < checkedRows indices len) {index : Int}
    (hindex : indices.index? row = some index) : 0 ≤ index ∧ index < choices :=
  badAt_eq_none.1 (List.findSome?_eq_none_iff.1 h row (List.mem_range.2 hrow)) index hindex

theorem lt_of_firstBad_eq_none (h : firstBad indices len choices = none) {i : Nat} (hi : i < len)
    {index : Int} (hindex : indices.index? i = some index) : index.toNat < choices := by
  have hin : 0 ≤ index ∧ index < choices := by
    cases indices with
    | scalar s =>
      rw [Value.index?_scalar] at hindex
      exact inRange_of_firstBad_eq_none h Nat.one_pos (by rwa [Value.index?_scalar])
    | column v => exact inRange_of_firstBad_eq_none h hi hindex
  omega

theorem firstBad_eq_none (h : ∀ row < checkedRows indices len, ∀ index,
    indices.index? row = some index → 0 ≤ index ∧ index < choices) :
    firstBad indices len choices = none := by
  apply List.findSome?_eq_none_iff.2
  intro row hrow
  exact badAt_eq_none.2 (h row (List.mem_range.1 hrow))

variable {v : View} {t : FixedType} {c : FixedColumn t}

theorem exists_toIndex? (hinteger : t.isInteger) (slot : t.Slot) :
    ∃ index, t.toIndex? slot = some index := by
  cases t with
  | int32 | int64 | uint32 | uint64 => exact ⟨_, rfl⟩
  | float32 | float64 => cases hinteger

/-- A row of an index column is checked as `badAt` says. -/
theorem checkedSource_eq (hc : v.column = .fixed t c) (hinteger : t.isInteger)
    (hcovers : c.validity.Covers c.length) (choices row : Nat)
    (hrow : v.offset + row < c.length) :
    checkedSource c v.offset choices row =
      match badAt (.column v) choices row with
      | some e => .error (.rejected e)
      | none => .ok (((Value.column v).index? row).map Int.toNat) := by
  rw [badAt, Value.index?_column hc, checkedSource, FixedColumn.get_eq hcovers hrow]
  cases c.validity.bit (v.offset + row) with
  | false => rfl
  | true =>
    obtain ⟨index, hindex⟩ := exists_toIndex? hinteger (c.slots.getD (v.offset + row) 0)
    simp only [Checked.lift, bind, Except.bind, if_true, hindex, Option.getD_some, named_eq,
      Option.bind_some]
    by_cases hin : 0 ≤ index ∧ index < choices
    · rw [if_pos hin, if_pos hin]
      rfl
    · rw [if_neg hin, if_neg hin]
      rfl

/-- The groups from a row on tile the rows and read their indices, unless one of these is bad: then
the first bad one is the rejection. -/
theorem groups_spec (hc : v.column = .fixed t c) (hinteger : t.isInteger)
    (hcovers : c.validity.Covers c.length) (choices : Nat) (n row : Nat)
    (hrow : v.offset + (row + n) ≤ c.length) :
    match (List.range' row n).findSome? (badAt (.column v) choices) with
    | some e => groups c v.offset choices row n = .error (.rejected e)
    | none => ∃ spans, groups c v.offset choices row n = .ok spans ∧
        Segment.Tile row (row + n) spans ∧
          Segment.Reads (fun i => ((Value.column v).index? i).map Int.toNat) spans := by
  induction n generalizing row with
  | zero => exact ⟨[], rfl, rfl, Segment.reads_nil⟩
  | succ n ih =>
    have hsource := checkedSource_eq hc hinteger hcovers choices row (by omega)
    have ih := ih (row + 1) (by omega)
    rw [List.range'_succ, List.findSome?_cons]
    cases hbad : badAt (.column v) choices row with
    | some e =>
      rw [hbad] at hsource
      simp only [groups, hsource, bind, Except.bind]
    | none =>
      rw [hbad] at hsource
      simp only
      -- This row is fine, so the rest decides.
      cases hrest : (List.range' (row + 1) n).findSome? (badAt (.column v) choices) with
      | some e =>
        rw [hrest] at ih
        simp only [groups, hsource, ih, bind, Except.bind]
      | none =>
        rw [hrest] at ih
        obtain ⟨spans, hspans, htile, hreads⟩ := ih
        refine ⟨Segment.cons ⟨row, 1, ((Value.column v).index? row).map Int.toNat⟩ spans, ?_, ?_,
          ?_⟩
        · simp only [groups, hsource, hspans, bind, Except.bind]
          rfl
        · rw [show row + (n + 1) = row + 1 + n by omega]
          exact Segment.Tile.cons (s := ⟨row, 1, ((Value.column v).index? row).map Int.toNat⟩) htile
        · apply hreads.cons
          intro i hi hlt
          simp only [Segment.stop] at hi hlt
          obtain rfl : i = row := by omega
          rfl

/-! ### Index arguments -/

/-- **The spans of an index argument read its indices, unless one of them is bad.** -/
theorem spans_spec (hinteger : indices.isTyped → indices.type.isInteger)
    (hwell : indices.WellFormed) (hlen : ∀ n, indices.length? = some n → n = len) (choices : Nat) :
    match firstBad indices len choices with
    | some e => spans indices len choices = .error (.rejected e)
    | none => ∃ ss, spans indices len choices = .ok ss ∧ Segment.Tile 0 len ss ∧
        Segment.Reads (fun i => (indices.index? i).map Int.toNat) ss := by
  cases indices with
  | scalar s =>
    -- All rows are one span. The index is checked even if there are none.
    have hread : (fun i => ((Value.scalar s).index? i).map Int.toNat) =
        fun _ => s.asIndex?.map Int.toNat := by
      funext i
      rw [Value.index?_scalar]
    have hfirst : firstBad (.scalar s) len choices = badAt (.scalar s) choices 0 := by
      simp [firstBad, checkedRows, Value.isScalar, List.range_one]
    rw [hread, hfirst, badAt, Value.index?_scalar, spans]
    have hwhole : ∀ source : Option Nat,
        Segment.Tile 0 len (Segment.merge [⟨0, len, source⟩]) ∧
          Segment.Reads (fun _ => source) (Segment.merge [⟨0, len, source⟩]) :=
      fun source => ⟨Segment.tile_merge_single len source,
        Segment.reads_merge_single fun _ _ => rfl⟩
    cases hindex : s.asIndex? with
    | none => exact ⟨_, rfl, hwhole none⟩
    | some index =>
      simp only [Option.bind_some, named_eq]
      by_cases hin : 0 ≤ index ∧ index < choices
      · simp only [if_pos hin]
        exact ⟨_, rfl, hwhole (some index.toNat)⟩
      · simp only [if_neg hin]
        rfl
  | column v =>
    obtain ⟨t, c, hc, ht, hcovers, hbounds⟩ := Value.integer_column hinteger hwell
    obtain rfl := hlen v.len rfl
    have hgroups := groups_spec hc ht hcovers choices v.len 0 (by
      rw [Nat.zero_add]
      exact hbounds)
    have hspans : spans (.column v) v.len choices = groups c v.offset choices 0 v.len := by
      rw [spans, hc]
      simp [ht]
    rw [hspans, firstBad, checkedRows, List.range_eq_range']
    rwa [Nat.zero_add] at hgroups

/-- Once the indices are checked, the row path reads the same ones. -/
theorem source_eq (hinteger : indices.isTyped → indices.type.isInteger)
    (hwell : indices.WellFormed) {i : Nat} (hi : indices.Has i) :
    source indices i = .ok ((indices.index? i).map Int.toNat) := by
  cases indices with
  | scalar s => rw [source, Value.index?_scalar]
  | column v =>
    obtain ⟨t, c, hc, -, hcovers, hbounds⟩ := Value.integer_column hinteger hwell
    have hlt := hi v.len rfl
    have hrow : v.offset + i < c.length := Nat.lt_of_lt_of_le (Nat.add_lt_add_left hlt _) hbounds
    rw [source, View.scalarAt, hc, Column.scalarAt, FixedColumn.get_eq hcovers hrow,
      Value.index?_column hc, Checked.require_of hlt]
    cases c.validity.bit (v.offset + i) <;> rfl

variable {values : List Value}

/-- **On any path, the first bad index rejects the call, and without one the plan supplies what the
indices pick.** -/
theorem plan_spec (hinteger : indices.isTyped → indices.type.isInteger)
    (hwell : indices.WellFormed) (hlen : ∀ n, indices.length? = some n → n = len) (path : Path) :
    match firstBad indices len values.length with
    | some e => Choose.plan indices values len path = Logged.reject e
    | none => ∃ plan, (Choose.plan indices values len path).outcome = .ok plan ∧
        plan.Supplies len (Call.choose indices values).supply := by
  have hspans := spans_spec hinteger hwell hlen values.length
  cases hbad : firstBad indices len values.length with
  | some e =>
    rw [hbad] at hspans
    simp only [Choose.plan, hspans]
    rfl
  | none =>
    rw [hbad] at hspans
    obtain ⟨ss, hss, htile, hreads⟩ := hspans
    refine ⟨Plan.of (path.useSpans ss.length len (values.all Value.isScalar)) values ss
      (source indices), ?_, Plan.supplies_of _ htile hreads ?_ ?_⟩
    · simp only [Choose.plan, hss, Logged.ok_bind, Logged.report_bind]
      rfl
    · intro i hi
      exact source_eq hinteger hwell fun n hn => hlen n hn ▸ hi
    · intro i hi
      apply Call.names_supply (c := .choose indices values)
      intro k hk
      obtain ⟨index, hindex, rfl⟩ := Option.map_eq_some_iff.1 hk
      exact lt_of_firstBad_eq_none hbad hi hindex

end Choose

end Columnar
