import Columnar.Plan
import Columnar.Proofs.Builder.Fill
import Columnar.Proofs.Column.Rows
import Columnar.Proofs.Segments

/-!
# Plans and what they come to

A plan is right if it supplies each row from where it should, and then both ways of carrying it out
come to the same.
-/

namespace Columnar

/-! ## What supplies the rows of an output

A **supply** names the value that each row of an output comes from. It says all that matters about a
plan: the rows of the output, and the first row that **breaks**, where a value does not fit or the
text so far outgrows the memory. Neither depends on how the rows are grouped.
-/

/-- The value that supplies each row. Rows without one are null. -/
abbrev Supply := Nat → Option Value

namespace Supply

variable (s : Supply) (type : DataType)

/-- Row `i` of an output of a type. -/
def row (i : Nat) : Row := (s i).elim (.blank type) fun value => value.row type i

/-- The rows of an output, as far as row `len`. -/
def rows (len : Nat) : List Row := (List.range len).map (s.row type)

@[simp] theorem length_rows (len : Nat) : (s.rows type len).length = len := by
  simp [rows]

theorem rows_add (m n : Nat) :
    s.rows type (m + n) = s.rows type m ++ (List.range n).map fun j => s.row type (m + j) :=
  map_range_add _ m n

theorem textBytes_rows_mono {m n : Nat} (h : m ≤ n) :
    Row.textBytesOf (s.rows type m) ≤ Row.textBytesOf (s.rows type n) := by
  obtain ⟨k, rfl⟩ := Nat.exists_eq_add_of_le h
  rw [rows_add, Row.textBytesOf_append]
  exact Nat.le_add_right _ _

theorem rows_of_unsupplied {s : Supply} {start n : Nat} (h : ∀ j < n, s (start + j) = none) :
    ((List.range n).map fun j => s.row type (start + j)) =
      List.replicate n (Row.blank type) := by
  rw [← map_range_const]
  apply map_range_congr
  intro j hj
  rw [Supply.row, h j hj, Option.elim_none]

theorem rows_of_supplied {s : Supply} {value : Value} {start n : Nat}
    (h : ∀ j < n, s (start + j) = some value) :
    ((List.range n).map fun j => s.row type (start + j)) =
      (List.range n).map fun j => value.row type (start + j) := by
  apply map_range_congr
  intro j hj
  rw [Supply.row, h j hj, Option.elim_some]

/-! ### Breaks -/

/-- The rejection of what supplies row `i`, if it does not fit. -/
def misfit (i : Nat) : Option Rejection := (s i).bind (Value.misfit type)

/-- Why row `i` cannot be appended to the rows before it, if it cannot: it does not fit, or there is
no memory for the text. -/
def breakAt (i : Nat) : Option Failure :=
  match s.misfit type i with
  | some e => some (.rejected e)
  | none =>
    if addressableBytes < Row.textBytesOf (s.rows type (i + 1)) then some (.fault .tooLarge)
    else none

/-- Why the first row that cannot be appended cannot be. -/
def firstBreak (len : Nat) : Option Failure := (List.range len).findSome? (s.breakAt type)

variable {s type}

theorem firstBreak_add (m n : Nat) :
    s.firstBreak type (m + n) =
      (s.firstBreak type m).or ((List.range n).findSome? fun j => s.breakAt type (m + j)) := by
  rw [firstBreak, List.range_add, List.findSome?_append, List.findSome?_map]
  rfl

theorem firstBreak_of_le {m n : Nat} {f : Failure} (h : s.firstBreak type m = some f)
    (hle : m ≤ n) : s.firstBreak type n = some f := by
  obtain ⟨k, rfl⟩ := Nat.exists_eq_add_of_le hle
  rw [firstBreak_add, h, Option.some_or]

theorem firstBreak_add_eq_none {start n : Nat} (h : s.firstBreak type start = none)
    (hfits : ∀ j < n, s.misfit type (start + j) = none)
    (hmem : Row.textBytesOf (s.rows type (start + n)) ≤ addressableBytes) :
    s.firstBreak type (start + n) = none := by
  rw [firstBreak_add, h, Option.none_or, List.findSome?_eq_none_iff]
  intro j hj
  have hlt : j < n := List.mem_range.1 hj
  have hmono := s.textBytes_rows_mono type (show start + j + 1 ≤ start + n by omega)
  rw [breakAt, hfits j hlt]
  exact if_neg (by omega)

/-- Nothing breaks exactly if all rows fit and there is memory for their text. -/
theorem firstBreak_eq_none {len : Nat} : s.firstBreak type len = none ↔
    (∀ i < len, s.misfit type i = none) ∧
      Row.textBytesOf (s.rows type len) ≤ addressableBytes := by
  constructor
  · intro h
    have hnone : ∀ i < len, s.misfit type i = none ∧
        Row.textBytesOf (s.rows type (i + 1)) ≤ addressableBytes := by
      intro i hi
      have hbreak := List.findSome?_eq_none_iff.1 h i (List.mem_range.2 hi)
      rw [breakAt] at hbreak
      cases hmisfit : s.misfit type i with
      | some e => simp [hmisfit] at hbreak
      | none => simpa [hmisfit] using hbreak
    refine ⟨fun i hi => (hnone i hi).1, ?_⟩
    cases len with
    | zero => exact Nat.zero_le _
    | succ len => exact (hnone len (Nat.lt_succ_self len)).2
  · rintro ⟨hfits, hmem⟩
    rw [← Nat.zero_add len] at hmem ⊢
    exact firstBreak_add_eq_none rfl (fun j hj => by rw [Nat.zero_add, hfits j hj]) hmem

theorem firstBreak_add_of_misfit {start n : Nat} {e : Rejection}
    (h : s.firstBreak type start = none) (hn : 0 < n) (hmisfit : s.misfit type start = some e) :
    s.firstBreak type (start + n) = some (.rejected e) := by
  refine firstBreak_of_le (m := start + 1) ?_ (by omega)
  rw [firstBreak_add, h]
  simp [breakAt, hmisfit]

theorem firstBreak_add_of_tooLarge {start n : Nat} (h : s.firstBreak type start = none)
    (hn : 0 < n) (hfits : ∀ j < n, s.misfit type (start + j) = none)
    (hmem : addressableBytes < Row.textBytesOf (s.rows type (start + n))) :
    s.firstBreak type (start + n) = some (.fault .tooLarge) := by
  rw [firstBreak_add, h, Option.none_or]
  cases hfirst : (List.range n).findSome? fun j => s.breakAt type (start + j) with
  | none =>
    rw [List.findSome?_eq_none_iff] at hfirst
    have hlast := hfirst (n - 1) (List.mem_range.2 (by omega))
    rw [breakAt, hfits _ (by omega), show start + (n - 1) + 1 = start + n by omega] at hlast
    simp [hmem] at hlast
  | some f =>
    obtain ⟨j, hj, hf⟩ := List.exists_of_findSome?_eq_some hfirst
    rw [breakAt, hfits j (List.mem_range.1 hj)] at hf
    by_cases hover : addressableBytes < Row.textBytesOf (s.rows type (start + j + 1))
    · simpa [hover] using hf.symm
    · simp [hover] at hf

theorem firstBreak_cases {len : Nat} {f : Failure} (h : s.firstBreak type len = some f) :
    (∃ i < len, ∃ e, s.misfit type i = some e ∧ f = .rejected e) ∨
      f = .fault .tooLarge ∧ addressableBytes < Row.textBytesOf (s.rows type len) := by
  obtain ⟨i, hi, hf⟩ := List.exists_of_findSome?_eq_some h
  have hlt : i < len := List.mem_range.1 hi
  rw [breakAt] at hf
  split at hf
  · rename_i e he
    exact .inl ⟨i, hlt, e, he, (Option.some.inj hf).symm⟩
  · split at hf
    · rename_i hmem
      refine .inr ⟨(Option.some.inj hf).symm, ?_⟩
      exact Nat.lt_of_lt_of_le hmem (s.textBytes_rows_mono type hlt)
    · cases hf

end Supply

/-! ## Carrying out a plan

Both ways of carrying out a plan keep one invariant: before row `i` the builder holds the rows below
`i`, and none of them breaks. A span carries it on by several rows and a single row by one, so
**what a plan comes to is told by its supply alone**. A failed allocation is the exception, since a
span asks for room that a row may not.
-/

/-- Rounds over the segments of a tiling, each of which carries the invariant on to its stop. -/
theorem Attempt.ends_forEach_tile {σ α : Type} {f : σ → Segment α → Attempt σ}
    {P : Nat → σ → Prop} {F : Failure → Prop} {start stop : Nat} {segments : List (Segment α)}
    (htile : Segment.Tile start stop segments)
    (hstep : ∀ t ∈ segments, 0 < t.len → ∀ s, P t.start s → (f s t).Ends (P t.stop) F)
    {s : σ} (h : P start s) : (forEach f segments s).Ends (P stop) F := by
  induction segments generalizing start s with
  | nil =>
    cases htile
    exact h
  | cons t rest ih =>
    obtain ⟨rfl, hlen, hrest⟩ := htile
    exact (hstep t (.head _) hlen s h).andThen fun s' hs' =>
      ih hrest (fun u hu => hstep u (.tail _ hu)) hs'

namespace Supply

variable {s : Supply} {type : DataType} {len : Nat}

/-- Every value that is to supply a row can. -/
def Ready (s : Supply) (type : DataType) (len : Nat) : Prop :=
  ∀ i < len, ∀ value, s i = some value → value.Ready type len

/-- The builder holds the rows below `i`, none of which breaks. -/
def Built (s : Supply) (type : DataType) (i : Nat) (b : Builder) : Prop :=
  b.type = type ∧ b.Holds (s.rows type i) ∧ s.firstBreak type i = none

/-- Carrying out the supply may break off so. -/
def Breaks (s : Supply) (type : DataType) (len : Nat) (f : Failure) : Prop :=
  f.IsAllocation ∨ s.firstBreak type len = some f

/-- Adding the rows from `start` on, which all fit or all do not, carries the invariant on. -/
theorem Built.step {b : Builder} {start n : Nat} {misfit : Option Rejection} {a : Attempt Builder}
    (hb : s.Built type start b) (hn : 0 < n) (hle : start + n ≤ len)
    (hmisfit : ∀ j < n, s.misfit type (start + j) = misfit)
    (h : b.Adds (s.rows type start) ((List.range n).map fun j => s.row type (start + j)) misfit a) :
    a.Ends (s.Built type (start + n)) (s.Breaks type len) := by
  obtain ⟨htype, -, hbreak⟩ := hb
  rw [Builder.Adds] at h
  rw [← rows_add] at h
  apply h.mono
  · intro t ht
    obtain ⟨httype, hholds, rfl⟩ := ht
    exact ⟨httype.trans htype, hholds, firstBreak_add_eq_none hbreak hmisfit hholds.textBytes_le⟩
  · intro f hf
    rcases hf with ⟨halloc, -⟩ | hf
    · exact .inl halloc
    · right
      apply firstBreak_of_le _ hle
      -- If the rows fit, it was their text that there was no memory for.
      cases misfit with
      | some e =>
        subst hf
        exact firstBreak_add_of_misfit hbreak hn (hmisfit 0 hn)
      | none =>
        obtain ⟨rfl, -, hmem⟩ := hf
        exact firstBreak_add_of_tooLarge hbreak hn hmisfit hmem

/-- How a call over the supply ends, allocations aside: with the one rejection of a type without a
builder, with the first break, or with the canonical column of the rows. -/
inductive Answer (s : Supply) (type : DataType) (len : Nat) : Except Failure Column → Prop
  | abstract : ¬ type.Concrete →
      Answer s type len (.error (.rejected (.typeMismatch .builder .concrete (some .null))))
  | breaks {f : Failure} : type.Concrete → s.firstBreak type len = some f →
      Answer s type len (.error f)
  | column {out : Column} : type.Concrete → s.firstBreak type len = none → out.Canonical →
      out.type = type → out.rows = s.rows type len → Answer s type len (.ok out)

/-- **There is one answer.** -/
theorem Answer.unique {x y : Except Failure Column} (hx : s.Answer type len x)
    (hy : s.Answer type len y) : x = y := by
  cases hx with
  | abstract h =>
    cases hy with
    | abstract => rfl
    | breaks h' | column h' => exact absurd h' h
  | breaks h hbreak =>
    cases hy with
    | abstract h' => exact absurd h h'
    | breaks _ hbreak' => rw [Option.some.inj (hbreak.symm.trans hbreak')]
    | column _ hbreak' => exact absurd (hbreak.symm.trans hbreak') (by simp)
  | column h hbreak hcanonical htype hrows =>
    cases hy with
    | abstract h' => exact absurd h h'
    | breaks _ hbreak' => exact absurd (hbreak'.symm.trans hbreak) (by simp)
    | column _ _ hcanonical' htype' hrows' =>
      rw [hcanonical.ext (htype ▸ h) hcanonical' (htype.trans htype'.symm)
        (hrows.trans hrows'.symm)]

end Supply

namespace Plan

variable {s : Supply} {type : DataType} {len : Nat}

/-- The source in a plan is the value of the supply, and there is none if the supply has none. -/
def Names (values : List Value) (source : Option Nat) (supplied : Option Value) : Prop :=
  match source with
  | none => supplied = none
  | some k => ∃ value, values[k]? = some value ∧ supplied = some value

/-- The plan takes each row from the value that supplies it. -/
def Supplies (plan : Plan) (len : Nat) (s : Supply) : Prop :=
  match plan with
  | spans values ss => Segment.Tile 0 len ss ∧
      ∀ t ∈ ss, ∀ i, t.start ≤ i → i < t.stop → Names values t.value (s i)
  | rows values source => ∀ i < len, ∃ k, source i = .ok k ∧ Names values k (s i)

/-- Spans and sources that are read off one choice of sources supply the same. -/
theorem supplies_of (bySpans : Bool) {values : List Value} {ss : List Span}
    {source : Nat → Checked (Option Nat)} {choice : Nat → Option Nat}
    (htile : Segment.Tile 0 len ss) (hreads : Segment.Reads choice ss)
    (hsource : ∀ i < len, source i = .ok (choice i))
    (hnames : ∀ i < len, Names values (choice i) (s i)) :
    (Plan.of bySpans values ss source).Supplies len s := by
  rw [Plan.of]
  split
  · refine ⟨htile, ?_⟩
    intro t ht i hi hlt
    rw [hreads t ht i hi hlt]
    exact hnames i (Nat.lt_of_lt_of_le hlt (htile.bounds ht).2)
  · intro i hi
    exact ⟨choice i, hsource i hi, hnames i hi⟩

/-- Rows that name one source have no value, or all have the value that it names. -/
theorem names_cases {values : List Value} {source : Option Nat} {start n : Nat} (hn : 0 < n)
    (h : ∀ j < n, Names values source (s (start + j))) :
    (source = none ∧ ∀ j < n, s (start + j) = none) ∨
      ∃ k value, source = some k ∧ values[k]? = some value ∧
        ∀ j < n, s (start + j) = some value := by
  cases source with
  | none => exact .inl ⟨rfl, h⟩
  | some k =>
    obtain ⟨value, hvalue, -⟩ := h 0 hn
    refine .inr ⟨k, value, rfl, hvalue, fun j hj => ?_⟩
    obtain ⟨other, hother, hsupplied⟩ := h j hj
    rw [hsupplied, ← hother, hvalue]

/-- Appending from one source carries the invariant on by as many rows as name it. -/
theorem addFrom_ends {values : List Value} {source : Option Nat} {b : Builder} {start n : Nat}
    {add : Value → Attempt Builder} (hs : s.Ready type len) (hm : type.Affords len)
    (hb : s.Built type start b) (hn : 0 < n) (hle : start + n ≤ len)
    (hnames : ∀ j < n, Names values source (s (start + j)))
    (hadd : ∀ value : Value, value.Ready type len → type.Affords ((s.rows type start).length + n) →
      b.Adds (s.rows type start) ((List.range n).map fun j => value.row type (start + j))
        (value.misfit type) (add value)) :
    (addFrom values b source n add).Ends (s.Built type (start + n)) (s.Breaks type len) := by
  have hm' : type.Affords ((s.rows type start).length + n) := by
    rw [Supply.length_rows]
    exact hm.mono hle
  rcases names_cases hn hnames with ⟨rfl, hnone⟩ | ⟨k, value, rfl, hvalue, hsame⟩
  · have hmisfit : ∀ j < n, s.misfit type (start + j) = none := by
      intro j hj
      rw [Supply.misfit, hnone j hj, Option.bind_none]
    apply hb.step hn hle hmisfit
    obtain ⟨rfl, hholds, -⟩ := hb
    rw [Supply.rows_of_unsupplied _ hnone]
    exact Builder.fillNull_adds hholds hm'
  · have hready := hs start (by omega) value (hsame 0 hn)
    have hmisfit : ∀ j < n, s.misfit type (start + j) = value.misfit type := by
      intro j hj
      rw [Supply.misfit, hsame j hj, Option.bind_some]
    rw [addFrom]
    simp only [hvalue]
    apply hb.step hn hle hmisfit
    rw [Supply.rows_of_supplied _ hsame]
    exact hadd value hready hm'

/-- Appending all rows of a plan ends with all rows of its supply, or at its first break. -/
theorem add_ends {plan : Plan} {b : Builder} (h : plan.Supplies len s) (hs : s.Ready type len)
    (hm : type.Affords len) (hb : s.Built type 0 b) :
    (plan.add len b).Ends (s.Built type len) (s.Breaks type len) := by
  cases plan with
  | spans values ss =>
    obtain ⟨htile, hnames⟩ := h
    -- A span at a time, or a row at a time: either way the rows so far are those of the supply.
    apply Attempt.ends_forEach_tile (P := s.Built type) htile _ hb
    intro t ht hlen b hb
    have hstop : t.start + t.len ≤ len := (htile.bounds ht).2
    apply addFrom_ends hs hm hb hlen hstop
    · intro j hj
      exact hnames t ht _ (Nat.le_add_right _ _) (Nat.add_lt_add_left hj _)
    · intro value hready hm'
      obtain ⟨rfl, hholds, -⟩ := hb
      exact Builder.take_adds hholds hready hlen hstop hm'
  | rows values source =>
    apply Attempt.ends_forEach_range (P := s.Built type) _ hb
    intro i hi b hb
    obtain ⟨k, hsource, hnames⟩ := h i hi
    rw [addRow]
    rw [hsource]
    apply addFrom_ends hs hm hb Nat.one_pos hi
    · intro j hj
      obtain rfl : j = 0 := by omega
      exact hnames
    · intro value hready hm'
      obtain ⟨rfl, hholds, -⟩ := hb
      exact Builder.takeRow_adds hholds hready hi hm'

/-- **Any plan of a supply that can be carried out comes to the supply's answer**, unless an
allocation fails. -/
theorem run_answer {plan : Plan} (h : plan.Supplies len s) (hs : s.Ready type len) :
    (∃ f, (plan.run type len).outcome = .error f ∧ f.IsAllocation) ∨
      s.Answer type len (plan.run type len).outcome := by
  have hrun : (plan.run type len).outcome =
      (Builder.reserve type len (plan.payload len)).outcome >>= fun b =>
        (plan.add len b).toExcept >>= fun b => b.finish.lift := by
    simp only [Plan.run, Logged.outcome_bind]
    rfl
  rw [hrun]
  rcases Builder.reserve_spec type len (plan.payload len) with
    ⟨b, hb, rfl, hholds, hm⟩ | ⟨f, hf, hcause⟩
  · rw [hb]
    rcases (add_ends h hs hm ⟨rfl, hholds, rfl⟩).toExcept with
      ⟨b', hadd, htype, hrows, hbreak⟩ | ⟨f, hadd, halloc | hbreak⟩
    · obtain ⟨out, hfinish, hcanonical, hout, houtrows⟩ := hrows.finish
      right
      simp only [bind, Except.bind, hadd, hfinish]
      exact .column b.concrete_type hbreak hcanonical (hout.trans htype) houtrows
    · refine .inl ⟨f, ?_, halloc⟩
      simp only [bind, Except.bind, hadd]
    · right
      simp only [bind, Except.bind, hadd]
      exact .breaks b.concrete_type hbreak
  · rw [hf]
    rcases hcause with halloc | ⟨hconcrete, rfl⟩
    · exact .inl ⟨f, rfl, halloc⟩
    · exact .inr (.abstract hconcrete)

end Plan

end Columnar
