import Columnar.Proofs.Select.Alike

/-!
# What the argument checks report

The checks of a call come in one order: the number of the arguments, the selectors one after the
other, the types of the values, the lengths of all arguments. `Call.Fails` says of each check when
it fails and what it then reports, given that all before it go through. A check of several arguments
reports the **first** that is at fault.
-/

namespace Columnar

/-! ## First elements -/

/-- The first element of a list with a property. -/
def IsFirst {α : Type} (p : α → Prop) (xs : List α) (x : α) : Prop :=
  ∃ before after, xs = before ++ x :: after ∧ p x ∧ ∀ y ∈ before, ¬ p y

section First

variable {α β : Type} {p : α → Prop} {xs : List α} {x y : α}

theorem isFirst_nil : ¬ IsFirst p [] x := by
  rintro ⟨before, after, h, -⟩
  simp at h

theorem isFirst_cons : IsFirst p (x :: xs) y ↔ (p x ∧ y = x) ∨ (¬ p x ∧ IsFirst p xs y) := by
  constructor
  · rintro ⟨before, after, h, hy, hbefore⟩
    cases before with
    | nil =>
      obtain ⟨rfl, -⟩ := List.cons.inj h
      exact .inl ⟨hy, rfl⟩
    | cons z before =>
      obtain ⟨rfl, rfl⟩ := List.cons.inj h
      exact .inr ⟨hbefore x (.head _), before, after, rfl, hy, fun z hz => hbefore z (.tail _ hz)⟩
  · rintro (⟨hx, rfl⟩ | ⟨hx, before, after, rfl, hy, hbefore⟩)
    · exact ⟨[], xs, rfl, hx, nofun⟩
    · exact ⟨x :: before, after, rfl, hy, List.forall_mem_cons.2 ⟨hx, hbefore⟩⟩

theorem find?_eq_some_iff {r : α → Bool} (h : ∀ x, r x ↔ p x) :
    xs.find? r = some x ↔ IsFirst p xs x := by
  induction xs with
  | nil => simp [isFirst_nil]
  | cons y ys ih =>
    rw [isFirst_cons, List.find?_cons, ← h]
    cases hy : r y with
    | true => simp [eq_comm]
    | false => simpa using ih

theorem head?_filterMap_eq_some_iff {f : α → Option β} {b : β} :
    (xs.filterMap f).head? = some b ↔ ∃ x, IsFirst (fun x => f x ≠ none) xs x ∧ f x = some b := by
  induction xs with
  | nil => simp [isFirst_nil]
  | cons y ys ih =>
    simp only [isFirst_cons, List.filterMap_cons]
    cases hy : f y with
    | none => simpa using ih
    | some c => simp [hy]

/-- Two keys differ: `a` is the key of the first element that has one, and `b` is that of the first
element whose key is another. -/
def Clash (f : α → Option β) (xs : List α) (a b : β) : Prop :=
  (∃ x, IsFirst (fun x => f x ≠ none) xs x ∧ f x = some a) ∧
    ∃ y, IsFirst (fun y => f y ≠ none ∧ f y ≠ some a) xs y ∧ f y = some b

theorem not_clash_of_nil {f : α → Option β} (h : xs.filterMap f = []) (a b : β) :
    ¬ Clash f xs a b := by
  rintro ⟨hfirst, -⟩
  have hhead := head?_filterMap_eq_some_iff.2 hfirst
  rw [h] at hhead
  cases hhead

/-- Keys that are collected and compared to the first of them. -/
theorem clash_iff_of_cons [DecidableEq β] {f : α → Option β} {first : β} {others : List β}
    (h : xs.filterMap f = first :: others) (a b : β) :
    Clash f xs a b ↔ first = a ∧ others.find? (· ≠ first) = some b := by
  have hdiffers : ∀ y, (f y).any (fun c => decide (c ≠ a)) ↔ f y ≠ none ∧ f y ≠ some a := by
    intro y
    cases f y <;> simp
  have hfind : (∃ y, IsFirst (fun y => f y ≠ none ∧ f y ≠ some a) xs y ∧ f y = some b) ↔
      (first :: others).find? (· ≠ a) = some b := by
    rw [← h, List.find?_filterMap, Option.bind_eq_some_iff]
    simp only [find?_eq_some_iff hdiffers]
  rw [Clash, ← head?_filterMap_eq_some_iff, h, hfind, List.head?_cons, Option.some.injEq]
  apply and_congr_right
  rintro rfl
  simp

end First

/-! ## Argument checks -/

theorem bind_eq_error {ε α β : Type} {x : Except ε α} {f : α → Except ε β} {e : ε} :
    x >>= f = .error e ↔ x = .error e ∨ ∃ a, x = .ok a ∧ f a = .error e := by
  cases x <;> simp [bind, Except.bind]

theorem eq_ok_iff {ε : Type} {x : Except ε Unit} {u : Unit} : x = .ok u ↔ ∀ e, x ≠ .error e := by
  cases x <;> simp

namespace Arguments

variable {operation : Operation} {values args : List Value} {e : Rejection}

/-- The type of a typed value. -/
def typeOf? (value : Value) : Option DataType := if value.isTyped then some value.type else none

theorem map_type_filter (values : List Value) :
    (values.filter Value.isTyped).map Value.type = values.filterMap typeOf? := by
  induction values with
  | nil => rfl
  | cons value rest ih =>
    cases h : value.isTyped <;> simp [typeOf?, h, ih]

/-- **The types are rejected** because no value has one, or because two of them differ. -/
theorem commonType_eq_error : commonType operation values = .error e ↔
    ((∀ value ∈ values, ¬ value.isTyped) ∧ e = .typeMismatch operation .typedArgument none) ∨
      ∃ a b, Clash typeOf? values a b ∧ e = .typeMismatch operation (.type a) (some b) := by
  have huntyped : values.filterMap typeOf? = [] ↔ ∀ value ∈ values, ¬ value.isTyped := by
    simp [List.filterMap_eq_nil_iff, typeOf?]
  rw [commonType, map_type_filter, ← huntyped]
  cases hkeys : values.filterMap typeOf? with
  | nil => simp [not_clash_of_nil hkeys, eq_comm]
  | cons expected others =>
    simp only [clash_iff_of_cons hkeys]
    cases others.find? (· ≠ expected) <;> simp [eq_comm]

/-- **The lengths are rejected** because two columns differ. -/
theorem commonLength_eq_error : commonLength operation args = .error e ↔
    ∃ m n, Clash Value.length? args m n ∧ e = .lengthMismatch operation m n := by
  rw [commonLength]
  cases hkeys : args.filterMap Value.length? with
  | nil => simp [not_clash_of_nil hkeys]
  | cons expected others =>
    simp only [clash_iff_of_cons hkeys]
    cases others.find? (· ≠ expected) <;> simp [eq_comm]

/-- **The conditions are rejected** because of the first that is none. -/
theorem checkConditions_eq_error : checkConditions operation values = .error e ↔
    ∃ s, IsFirst (fun s => ¬ s.Fits .boolean) values s ∧
      e = .typeMismatch operation (.type .boolean) (some s.type) := by
  induction values with
  | nil => simp [checkConditions, isFirst_nil]
  | cons value rest ih =>
    simp only [checkConditions, isFirst_cons]
    by_cases h : value.isTyped ∧ value.type ≠ .boolean
    · have hnot : ¬ value.Fits .boolean := fun hfits => h.2 (hfits h.1)
      simp [checkCondition, h, hnot, bind, Except.bind, eq_comm]
    · have hfits : value.Fits .boolean := fun htyped =>
        Decidable.of_not_not fun hne => h ⟨htyped, hne⟩
      simpa [checkCondition, h, hfits, bind, Except.bind] using ih

/-- **An index argument is rejected** if it is none. -/
theorem checkIndex_eq_error {indices : Value} : checkIndex operation indices = .error e ↔
    ¬ (indices.isTyped → indices.type.isInteger) ∧
      e = .typeMismatch operation .integer (some indices.type) := by
  have hnot : (indices.isTyped ∧ !indices.type.isInteger) ↔
      ¬ (indices.isTyped → indices.type.isInteger) := by
    cases indices.isTyped <;> simp
  rw [checkIndex, ← hnot]
  by_cases h : indices.isTyped ∧ !indices.type.isInteger
  · rw [if_pos h, Except.error.injEq, eq_comm, iff_and_self]
    exact fun _ => h
  · rw [if_neg h]
    constructor
    · intro hok
      cases hok
    · intro hfound
      exact absurd hfound.1 h

end Arguments

/-! ## Failing checks -/

namespace Call

/-- The number of arguments is wrong. -/
inductive Miscounts : Call → ArgumentCause → Prop
  | noCondition {values : List Value} : Miscounts (caseWhen [] values) .noCondition
  | valueCount {conditions values : List Value} : conditions ≠ [] →
      values.length ≠ conditions.length → values.length ≠ conditions.length + 1 →
      Miscounts (caseWhen conditions values) (.valueCount conditions.length values.length)
  | noArgument : Miscounts (coalesce []) .noArgument
  | noChoice {indices : Value} : Miscounts (choose indices []) .noChoice

/-- The value can be a selector of the call. -/
def SelectsBy (c : Call) (s : Value) : Prop :=
  match c with
  | choose .. => s.isTyped → s.type.isInteger
  | _ => s.Fits .boolean

/-- What the call asks of its selectors. -/
def wanted : Call → Expectation
  | choose .. => .integer
  | _ => .type .boolean

/-- The number of arguments is right. -/
def Counted (c : Call) : Prop := ∀ cause, ¬ c.Miscounts cause

/-- All selectors can be that. -/
def Selected (c : Call) : Prop := ∀ s ∈ c.selectors, c.SelectsBy s

/-- What the first failing check of the arguments reports. Each check presupposes those before it.
-/
inductive Fails (c : Call) : Rejection → Prop
  | arity {cause : ArgumentCause} : c.Miscounts cause → Fails c (.invalidArguments cause)
  | selector {s : Value} : c.Counted → IsFirst (fun s => ¬ c.SelectsBy s) c.selectors s →
      Fails c (.typeMismatch c.operation c.wanted (some s.type))
  | untyped : c.Counted → c.Selected → (∀ value ∈ c.values, ¬ value.isTyped) →
      Fails c (.typeMismatch c.operation .typedArgument none)
  | types {a b : DataType} : c.Counted → c.Selected → Clash Arguments.typeOf? c.values a b →
      Fails c (.typeMismatch c.operation (.type a) (some b))
  | lengths {type : DataType} {m n : Nat} : c.Counted → c.Selected →
      Arguments.HaveType c.values type → Clash Value.length? c.arguments m n →
      Fails c (.lengthMismatch c.operation m n)

variable {c d : Call} {e : Rejection} {type : DataType} {len : Nat}

theorem checkArity_eq_error :
    c.checkArity = .error e ↔ ∃ cause, c.Miscounts cause ∧ e = .invalidArguments cause := by
  constructor
  · intro h
    cases c with
    | ifElse => cases h
    | caseWhen conditions values =>
      rw [checkArity, CaseWhen.checkArity] at h
      split at h
      · rename_i hnil
        cases h
        obtain rfl := List.isEmpty_iff.1 hnil
        exact ⟨_, .noCondition, rfl⟩
      · rename_i hcons
        split at h
        · cases h
        · rename_i hcount
          cases h
          -- The two counts that are allowed are one test, so its failure has two parts.
          rw [not_or] at hcount
          exact ⟨_, .valueCount (by simpa using hcons) hcount.1 hcount.2, rfl⟩
    | coalesce args =>
      cases args with
      | nil =>
        cases h
        exact ⟨_, .noArgument, rfl⟩
      | cons => cases h
    | choose indices choices =>
      cases choices with
      | nil =>
        cases h
        exact ⟨_, .noChoice, rfl⟩
      | cons => cases h
  · rintro ⟨cause, hcause, rfl⟩
    cases hcause with
    | noCondition | noArgument | noChoice => rfl
    | valueCount hne hcount hcount' =>
      simp [checkArity, CaseWhen.checkArity, hne, hcount, hcount']

theorem checkArity_eq_ok {u : Unit} : c.checkArity = .ok u ↔ c.Counted := by
  rw [eq_ok_iff, Counted]
  constructor
  · intro h cause hcause
    exact h _ (checkArity_eq_error.2 ⟨cause, hcause, rfl⟩)
  · intro h e he
    obtain ⟨cause, hcause, -⟩ := checkArity_eq_error.1 he
    exact h cause hcause

theorem checkSelectors_eq_error : c.checkSelectors = .error e ↔
    ∃ s, IsFirst (fun s => ¬ c.SelectsBy s) c.selectors s ∧
      e = .typeMismatch c.operation c.wanted (some s.type) := by
  cases c with
  | choose indices choices =>
    rw [checkSelectors, Arguments.checkIndex_eq_error]
    simp [selectors, isFirst_cons, isFirst_nil, SelectsBy, wanted]
  | _ => exact Arguments.checkConditions_eq_error

theorem checkSelectors_eq_ok {u : Unit} : c.checkSelectors = .ok u ↔ c.Selected := by
  cases c with
  | choose indices choices =>
    rw [checkSelectors, Arguments.checkIndex_eq_ok, Selected, selectors, List.forall_mem_singleton]
    rfl
  | _ => exact Arguments.checkConditions_eq_ok

/-- **The checks find what the first failing one reports.** -/
theorem check_eq_error : c.check = .error e ↔ c.Fails e := by
  rw [check]
  simp only [bind_eq_error, checkArity_eq_error, checkArity_eq_ok, checkSelectors_eq_error,
    checkSelectors_eq_ok, Arguments.commonType_eq_error, Arguments.commonType_eq_ok,
    Arguments.commonLength_eq_error]
  constructor
  · rintro (⟨cause, hcause, rfl⟩ | ⟨-, hcounted, ⟨s, hs, rfl⟩ | ⟨-, hselected,
      (⟨huntyped, rfl⟩ | ⟨a, b, hclash, rfl⟩) | ⟨type, htype, ⟨m, n, hclash, rfl⟩ | ⟨len, -, h⟩⟩⟩⟩)
    · exact .arity hcause
    · exact .selector hcounted hs
    · exact .untyped hcounted hselected huntyped
    · exact .types hcounted hselected hclash
    · exact .lengths hcounted hselected htype hclash
    · cases h
  · rintro (hcause | ⟨hcounted, hs⟩ | ⟨hcounted, hselected, huntyped⟩ |
      ⟨hcounted, hselected, hclash⟩ | ⟨hcounted, hselected, htype, hclash⟩)
    · exact .inl ⟨_, hcause, rfl⟩
    · exact .inr ⟨(), hcounted, .inl ⟨_, hs, rfl⟩⟩
    · exact .inr ⟨(), hcounted, .inr ⟨(), hselected, .inl (.inl ⟨huntyped, rfl⟩)⟩⟩
    · exact .inr ⟨(), hcounted, .inr ⟨(), hselected, .inl (.inr ⟨_, _, hclash, rfl⟩)⟩⟩
    · exact .inr ⟨(), hcounted, .inr ⟨(), hselected, .inr ⟨_, htype, .inl ⟨_, _, hclash, rfl⟩⟩⟩⟩

end Call

end Columnar
