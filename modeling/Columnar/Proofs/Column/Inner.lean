import Columnar.Column.Inner
import Columnar.Proofs.Builder.Fixed
import Columnar.Proofs.Column.Keeps

/-!
# Inner columns as lists

A column of one value per row is meant to be a list of optional values that is extended at its end
and cut to a part of itself. Every origin makes a column that keeps its list, and every step that
goes through leaves one that keeps the list after the step. What does not go through leaves the
column as it was. So **any steps of a column are those of its list**.
-/

namespace Columnar

namespace InnerType

variable {k : InnerType}

/-! ## Lists -/

/-- The offsets reach to the end of the text of the rows. Rows without text always fit. -/
def Fits (rows : List (Option k.Item)) : Prop :=
  match k, rows with
  | text t, rows => TextColumn.size rows ≤ Offsets.greatest t.offsetWidth
  | _, _ => True

instance : DecidablePred (@Fits k) := fun rows =>
  match k, rows with
  | text t, rows =>
    inferInstanceAs (Decidable (TextColumn.size rows ≤ Offsets.greatest t.offsetWidth))
  | fixed _, _ | boolean, _ => .isTrue trivial

/-- The number of text bytes of the rows. -/
def textBytes (rows : List (Option k.Item)) : Nat :=
  match k, rows with
  | text _, rows => TextColumn.size rows
  | _, _ => 0

/-- Why a value is not appended to the rows whose text does not fit. -/
def overflow (rows : List (Option k.Item)) (x : k.Item) : Rejection :=
  .allocationFailure (.offsetOverflow (textBytes (rows ++ [some x])))

/-- One more value, unless its text does not fit. -/
def append (rows : List (Option k.Item)) (x : k.Item) :
    Except Rejection (List (Option k.Item)) :=
  if Fits (rows ++ [some x]) then .ok (rows ++ [some x]) else .error (overflow rows x)

/-- What a step is on the list of the rows. Only what breaks a promise ends in a failure. -/
def Step.onRows (rows : List (Option k.Item)) : k.Step → Except Failure (List (Option k.Item))
  | push x => (Checked.insist (append rows x)).lift
  | tryPush x => .ok ((append rows x).toOption.getD rows)
  | pushNull => .ok (rows ++ [none])
  | slice offset len => do
    (Checked.requireRange offset len rows.length (.slice k.storage)).lift
    return (rows.drop offset).take len

/-- The rows of an origin. -/
def Origin.rows : k.Origin → List (Option k.Item)
  | empty | withRoom .. => []
  | ofList items => items.map some
  | ofRows rows => rows

/-- The bytes of the buffers that an origin asks for beforehand. -/
def Origin.buffers (o : k.Origin) : List Nat :=
  match k, o with
  | fixed t, withRoom rows _ => [rows * (t.width / 8)]
  | boolean, withRoom rows _ => [Bits.byteCount rows]
  | text t, withRoom (rows, bytes) _ => [(rows + 1) * (t.offsetWidth / 8), bytes]
  | text t, ofList items =>
    [(items.length + 1) * (t.offsetWidth / 8), TextColumn.size (items.map some)]
  | text t, ofRows rows => [(rows.length + 1) * (t.offsetWidth / 8), TextColumn.size rows]
  | _, _ => []

/-- An origin cannot be had: there is no memory for a buffer that it asks for, or the text of a row
does not fit behind that of the rows before it. -/
inductive Origin.Refused : k.Origin → Fault → Prop
  | noMemory {o : k.Origin} {bytes : Nat} : bytes ∈ o.buffers → addressableBytes < bytes →
      Refused o .tooLarge
  | unfit {o : k.Origin} (before after : List (Option k.Item)) (x : k.Item) :
      o.rows = before ++ some x :: after → Fits before → ¬ Fits (before ++ [some x]) →
      Refused o (.refused (overflow before x))

/-- Reading the column is reading the list. The nulls are counted, a mask has a bit for each row,
and what is stored under a null is the default of the type. -/
structure Denotes (c : k.Store) (rows : List (Option k.Item)) : Prop where
  length : length c = rows.length
  get : ∀ i (h : i < rows.length), get c i = .ok rows[i]
  nullCount : (validity c).nullCount = rows.countP Option.isNone
  mask : ∀ m, validity c = some m → m.len = rows.length
  blank : ∀ i, rows[i]? = some none → IsBlank c i

/-! ## Reading -/

/-- The column keeps the rows, as its storage does. -/
def Keeps (c : k.Store) (rows : List (Option k.Item)) : Prop :=
  match k, c, rows with
  | fixed _, c, rows => FixedColumn.Keeps c rows
  | boolean, c, rows => BooleanColumn.Keeps c rows
  | text _, c, rows => TextColumn.Keeps c rows

variable {c : k.Store} {rows : List (Option k.Item)}

theorem Keeps.length_eq (h : Keeps c rows) : length c = rows.length := by
  cases k with
  | fixed => exact FixedColumn.Keeps.length_eq h
  | boolean => exact BooleanColumn.Keeps.length_eq h
  | text => exact TextColumn.Keeps.length_eq h

theorem Keeps.get_eq (h : Keeps c rows) {i : Nat} (hi : i < rows.length) :
    get c i = .ok rows[i] := by
  cases k with
  | fixed => exact FixedColumn.Keeps.get_eq h hi
  | boolean => exact BooleanColumn.Keeps.get_eq h hi
  | text => exact TextColumn.Keeps.get_eq h hi

theorem Keeps.validity (h : Keeps c rows) : (validity c).Keeps (rows.map Option.isSome) := by
  cases k with
  | fixed => exact FixedColumn.Keeps.validity h
  | boolean => exact BooleanColumn.Keeps.validity h
  | text => exact TextColumn.Keeps.validity h

theorem Keeps.isBlank (h : Keeps c rows) {i : Nat} (hi : rows[i]? = some none) : IsBlank c i := by
  obtain ⟨hlt, hnone⟩ := List.getElem?_eq_some_iff.1 hi
  cases k with
  | fixed => exact (FixedColumn.Keeps.slotAt_eq h hlt).trans (by rw [hnone]; rfl)
  | boolean => exact (BooleanColumn.Keeps.valueAt_eq h hlt).trans (by rw [hnone]; rfl)
  | text => exact (TextColumn.Keeps.bytesAt_eq h hlt).trans (by rw [hnone]; rfl)

/-- **What is kept is read.** -/
theorem Keeps.denotes (h : Keeps c rows) : Denotes c rows where
  length := h.length_eq
  get i hi := h.get_eq hi
  nullCount := by
    rw [h.validity.nullCount_eq, List.count, List.countP_map]
    congr 1
    funext row
    cases row <;> rfl
  mask m hm := by
    have hcovers := h.validity.covers
    rw [hm, List.length_map] at hcovers
    exact hcovers
  blank i hi := h.isBlank hi

/-! ## Steps -/

theorem Keeps.tryPush_of_fits (h : Keeps c rows) {x : k.Item} (hfits : Fits (rows ++ [some x])) :
    ∃ d, tryPush c x = .done d ∧ Keeps d (rows ++ [some x]) := by
  cases k with
  | fixed => exact ⟨_, rfl, FixedColumn.Keeps.push h x⟩
  | boolean => exact ⟨_, rfl, BooleanColumn.Keeps.push h x⟩
  | text =>
    obtain ⟨d, hd, hkeeps⟩ := TextColumn.Keeps.tryPush h hfits
    refine ⟨d, ?_, hkeeps⟩
    rw [InnerType.tryPush, TextColumn.extend_eq, hd]
    rfl

theorem Keeps.tryPush_of_not_fits (h : Keeps c rows) {x : k.Item}
    (hfits : ¬ Fits (rows ++ [some x])) :
    tryPush c x = .failed c (.rejected (overflow rows x)) := by
  cases k with
  | fixed | boolean => exact absurd trivial hfits
  | text =>
    rw [InnerType.tryPush, TextColumn.extend_eq, TextColumn.Keeps.tryPush_eq_error h hfits]
    rfl

/-- A value is pushed if its text fits, and otherwise the column is left as it was. -/
theorem Keeps.tryPush (h : Keeps c rows) (x : k.Item) :
    match append rows x with
    | .ok all => ∃ d, tryPush c x = .done d ∧ Keeps d all
    | .error e => tryPush c x = .failed c (.rejected e) := by
  rw [append]
  by_cases hfits : Fits (rows ++ [some x])
  · rw [if_pos hfits]
    exact h.tryPush_of_fits hfits
  · rw [if_neg hfits]
    exact h.tryPush_of_not_fits hfits

theorem Keeps.pushNull (h : Keeps c rows) : Keeps (pushNull c) (rows ++ [none]) := by
  cases k with
  | fixed => exact FixedColumn.Keeps.pushNull h
  | boolean => exact BooleanColumn.Keeps.pushNull h
  | text => exact TextColumn.Keeps.pushNull h

theorem Keeps.slice (h : Keeps c rows) {offset len : Nat} (hr : offset + len ≤ rows.length) :
    ∃ d, slice c offset len = .ok d ∧ Keeps d ((rows.drop offset).take len) := by
  cases k with
  | fixed => exact FixedColumn.Keeps.slice h hr
  | boolean => exact BooleanColumn.Keeps.slice h hr
  | text => exact TextColumn.Keeps.slice h hr

/-- Rows past the end are asked for before anything is copied. -/
theorem slice_eq_error (c : k.Store) {offset len : Nat} (hr : ¬ offset + len ≤ length c) :
    slice c offset len = .error (.ofStop (offset + len) (.slice k.storage)) := by
  have hrequire : Checked.requireRange offset len (length c) (.slice k.storage) =
      .error (.ofStop (offset + len) (.slice k.storage)) := if_neg hr
  cases k with
  | fixed | boolean | text => exact congrArg (· >>= _) hrequire

/-- **One step of a column is that of its list.** A step that breaks off leaves the column as it
was. -/
theorem Keeps.step (h : Keeps c rows) (s : k.Step) :
    match s.onRows rows with
    | .ok rows' => ∃ d, step c s = .done d ∧ Keeps d rows'
    | .error f => step c s = .failed c f := by
  -- Both pushes append. They differ in what becomes of a text that does not fit: `push` breaks off,
  -- and `tryPush` hands the column back with the error.
  have hpush := h.tryPush
  cases s with
  | push x =>
    have hpush := hpush x
    rw [Step.onRows, InnerType.step, InnerType.push]
    cases happend : append rows x with
    | ok all =>
      rw [happend] at hpush
      obtain ⟨d, hd, hkeeps⟩ := hpush
      exact ⟨d, by rw [hd]; rfl, hkeeps⟩
    | error e =>
      rw [happend] at hpush
      rw [hpush]
      rfl
  | tryPush x =>
    have hpush := hpush x
    rw [Step.onRows, InnerType.step]
    cases happend : append rows x with
    | ok all =>
      rw [happend] at hpush
      obtain ⟨d, hd, hkeeps⟩ := hpush
      exact ⟨d, by rw [hd]; rfl, hkeeps⟩
    | error e =>
      rw [happend] at hpush
      exact ⟨c, by rw [hpush]; rfl, h⟩
  | pushNull => exact ⟨_, rfl, h.pushNull⟩
  | slice offset len =>
    rw [Step.onRows, InnerType.step]
    by_cases hr : offset + len ≤ rows.length
    · obtain ⟨d, hd, hkeeps⟩ := h.slice hr
      rw [Checked.requireRange, Checked.require_of hr, hd]
      exact ⟨d, rfl, hkeeps⟩
    · rw [slice_eq_error c (h.length_eq ▸ hr), Checked.requireRange, Checked.require, if_neg hr]
      rfl

/-- **Any steps of a column are those of its list**, up to the first that breaks off. -/
theorem Keeps.run (h : Keeps c rows) (steps : List k.Step) :
    match steps.foldlM Step.onRows rows with
    | .ok rows' => ∃ d, run c steps = .done d ∧ Keeps d rows'
    | .error f => (run c steps).failure = some f := by
  induction steps generalizing c rows with
  | nil => exact ⟨c, rfl, h⟩
  | cons s steps ih =>
    have hstep := h.step s
    rw [List.foldlM_cons, InnerType.run, Attempt.forEach]
    cases hrows : s.onRows rows with
    | ok rows' =>
      rw [hrows] at hstep
      obtain ⟨d, hd, hkeeps⟩ := hstep
      rw [hd, Attempt.done_andThen]
      exact ih hkeeps
    | error f =>
      rw [hrows] at hstep
      rw [hstep]
      rfl

/-! ## Origins -/

/-- The column of an origin is there and keeps its rows, or it is refused. -/
def Origin.Made (o : k.Origin) : Prop :=
  (∃ c, o.make = .ok c ∧ Keeps c o.rows) ∨ ∃ f, o.make = .error f ∧ o.Refused f

theorem Origin.made_of_requireBytes {o : k.Origin} {bytes : Nat} {rest : Checked k.Store}
    (hmake : o.make = Checked.requireBytes bytes >>= fun _ => rest) (hbytes : bytes ∈ o.buffers)
    (hrest : o.make = rest → o.Made) : o.Made := by
  rcases Nat.lt_or_ge addressableBytes bytes with hmem | hmem
  · rw [requireBytes_eq_error hmem] at hmake
    exact .inr ⟨_, hmake, .noMemory hbytes hmem⟩
  · rw [requireBytes_eq_ok hmem] at hmake
    exact hrest hmake

/-- Text columns ask for both buffers, and then push their rows one by one. -/
theorem Origin.made_of_rows {t : TextType} {o : (text t).Origin}
    (hmake : o.make = TextColumn.ofRows (o.rows.map (Option.map Utf8.encode)))
    (hbuffers : o.buffers = [(o.rows.length + 1) * (t.offsetWidth / 8), TextColumn.size o.rows]) :
    o.Made := by
  refine made_of_requireBytes (hmake.trans (TextColumn.ofRows_encode o.rows)) (by simp [hbuffers])
    fun hmake => ?_
  refine made_of_requireBytes hmake (by simp [hbuffers]) fun hmake => ?_
  have hpushed := (TextColumn.keeps_emptyWith (t := t) false).foldlM_pushRow (Nat.zero_le _) o.rows
  rw [← hmake] at hpushed
  -- The cases of `Pushed` fix what is made, so the origin must not stand in their place.
  generalize hmade : o.make = made at hpushed
  cases hpushed with
  | kept hkeeps => exact .inl ⟨_, hmade, hkeeps⟩
  | stopped before after x hrows hbefore hx =>
    exact .inr ⟨_, hmade, @Refused.unfit (text t) o before after x hrows hbefore hx⟩

/-- **Every origin makes a column that keeps its rows**, unless it is refused. -/
theorem Origin.made (o : k.Origin) : o.Made := by
  cases o with
  | empty =>
    cases k with
    | fixed => exact .inl ⟨_, rfl, FixedColumn.keeps_emptyWith false⟩
    | boolean => exact .inl ⟨_, rfl, BooleanColumn.keeps_emptyWith false⟩
    | text => exact .inl ⟨_, rfl, TextColumn.keeps_emptyWith false⟩
  | withRoom room masked =>
    cases k with
    | fixed =>
      exact made_of_requireBytes rfl (List.mem_singleton_self _) fun hmake =>
        .inl ⟨_, hmake, FixedColumn.keeps_emptyWith masked⟩
    | boolean =>
      exact made_of_requireBytes rfl (List.mem_singleton_self _) fun hmake =>
        .inl ⟨_, hmake, BooleanColumn.keeps_emptyWith masked⟩
    | text =>
      exact made_of_requireBytes rfl (List.mem_cons_self ..) fun hmake =>
        made_of_requireBytes hmake (by simp [buffers]) fun hmake =>
          .inl ⟨_, hmake, TextColumn.keeps_emptyWith masked⟩
  | ofList items =>
    cases k with
    | fixed => exact .inl ⟨_, rfl, FixedColumn.keeps_ofList items⟩
    | boolean => exact .inl ⟨_, rfl, BooleanColumn.keeps_ofList items⟩
    | text =>
      refine made_of_rows ?_ (by simp [buffers, Origin.rows])
      -- A list of texts is one of rows without nulls.
      rw [make, Origin.rows, TextColumn.ofList_eq_ofRows, List.map_map, List.map_map]
      rfl
  | ofRows rows =>
    cases k with
    | fixed => exact .inl ⟨_, rfl, FixedColumn.keeps_ofRows rows⟩
    | boolean => exact .inl ⟨_, rfl, BooleanColumn.keeps_ofRows rows⟩
    | text => exact made_of_rows rfl rfl

/-- Room for bytes is refused as room for offsets is, even where no row is asked for. -/
example : (Origin.withRoom (0, addressableBytes + 1) true : (text .string).Origin).make =
    .error .tooLarge := rfl

/-- **Columns of one value per row are lists of optional values.** An origin makes a column, or is
refused for want of memory or since its text does not fit. Any steps after it, in any order, end as
those of the list of its rows do: reading what is left is reading the list that is left, its nulls
are counted, a mask has a bit for each row, and what is stored under a null is the default of the
type. A value whose text does not fit is not pushed, which is reported and changes nothing. -/
theorem denotes_of_make (o : k.Origin) (steps : List k.Step) :
    (∀ f, o.make = .error f → o.Refused f) ∧
      ∀ c, o.make = .ok c →
        match steps.foldlM Step.onRows o.rows with
        | .error f => (run c steps).failure = some f
        | .ok rows => ∃ d, run c steps = .done d ∧ Denotes d rows ∧
            ∀ x, ¬ Fits (rows ++ [some x]) →
              tryPush d x = .failed d (.rejected (.allocationFailure
                (.offsetOverflow (textBytes (rows ++ [some x]))))) := by
  refine ⟨?_, ?_⟩
  · intro f hf
    rcases o.made with ⟨c, hc, -⟩ | ⟨f', hf', hrefused⟩
    · cases hf.symm.trans hc
    · cases hf.symm.trans hf'
      exact hrefused
  · intro c hc
    have hkeeps : Keeps c o.rows := by
      rcases o.made with ⟨c', hc', hkeeps⟩ | ⟨f, hf, -⟩
      · cases hc.symm.trans hc'
        exact hkeeps
      · cases hc.symm.trans hf
    have hrun := hkeeps.run steps
    cases hrows : steps.foldlM Step.onRows o.rows with
    | error f =>
      rw [hrows] at hrun
      exact hrun
    | ok rows =>
      rw [hrows] at hrun
      obtain ⟨d, hd, hkeeps⟩ := hrun
      exact ⟨d, hd, hkeeps.denotes, fun x hx => hkeeps.tryPush_of_not_fits hx⟩

/-- A slice drops the mask of a column, and the next null makes another one. -/
theorem denotes_of_make_int32 :
    ∃ c d, (Origin.ofRows [none, some 7, some 8] : (fixed .int32).Origin).make = .ok c ∧
      run c [.push 9, .slice 1 2, .pushNull, .tryPush 5] = .done d ∧
        Denotes d [some 7, some 8, none, some 5] := by
  have hdenotes := (denotes_of_make (.ofRows [none, some 7, some 8] : (fixed .int32).Origin)
    [.push 9, .slice 1 2, .pushNull, .tryPush 5]).2 _ rfl
  obtain ⟨d, hd, hrows, -⟩ := hdenotes
  exact ⟨_, d, rfl, hd, hrows⟩

end InnerType

end Columnar
