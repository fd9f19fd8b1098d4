import Columnar.Bits.Bitmask
import Columnar.Proofs.Bits.Mask

/-!
# Edited masks as edited lists

A mask is meant to be a list of booleans that grows and shrinks, however it came about and whatever
is done to it. On a **clean** mask one edit is the edit of the list and leaves a clean mask, so any
number of edits are.

Every way of making a mask makes a clean one, but for wrapping a buffer that is longer than needed.
That clears the padding of the last byte alone, and **what the spare bytes hold comes up as bits**
once the mask grows over them.
-/

namespace Columnar

open Bits

/-! ## Lists -/

namespace Edit

/-- What a change of a mask is on the list of its bits. -/
def onList (bits : List Bool) : Edit → List Bool
  | set i value => (bits ++ List.replicate (i + 1 - bits.length) false).set i value
  | resize len value => bits.take len ++ List.replicate (len - bits.length) value
  | push value n => bits ++ List.replicate n value
  | append w => bits ++ (w.mask.toList.drop w.offset).take w.len
  | appendOwn offset len => bits ++ (bits.drop offset).take len
  | slice offset len => (bits.drop offset).take len
  | trim => bits

/-- The windows of a change are there. -/
def InRange (bits : List Bool) : Edit → Prop
  | append w => w.offset + w.len ≤ w.mask.len
  | appendOwn offset len | slice offset len => offset + len ≤ bits.length
  | _ => True

/-- The windows of changes that are made one after the other are there. -/
def AllInRange (bits : List Bool) : List Edit → Prop
  | [] => True
  | e :: rest => e.InRange bits ∧ AllInRange (e.onList bits) rest

end Edit

namespace Bitmask

/-- Make changes one after the other. -/
def edits (m : Bitmask) (es : List Edit) : Checked Bitmask := es.foldlM edit m

/-- Reading the mask is reading the list. -/
structure Denotes (m : Bitmask) (bits : List Bool) : Prop where
  len : m.len = bits.length
  iter : m.toList = bits
  get : ∀ i (h : i < bits.length), m.get i = .ok bits[i]
  countOnes : m.countOnes = bits.count true

/-- The changes leave a mask of the list that they leave, unless there is no memory for a list on
the way. -/
def Follows (m : Bitmask) (bits : List Bool) (es : List Edit) : Prop :=
  (m.edits es = .error .tooLarge ∧
    ∃ made, made <+: es ∧ addressableBytes < byteCount (made.foldl Edit.onList bits).length) ∨
  ∃ m', m.edits es = .ok m' ∧ m'.Denotes (es.foldl Edit.onList bits)

theorem denotes_toList (m : Bitmask) : m.Denotes m.toList := by
  refine ⟨m.length_toList.symm, rfl, ?_, ?_⟩
  · intro i hi
    rw [length_toList] at hi
    simp [Bitmask.get, hi, toList, bind, Except.bind, pure, Except.pure]
  · rw [countOnes, Window.countOnes_eq, toList_whole]

/-! ## Clean masks -/

theorem requireBits_cases (n : Nat) :
    requireBits n = .ok () ∨
      requireBits n = .error .tooLarge ∧ addressableBytes < byteCount n := by
  rcases Nat.lt_or_ge addressableBytes (byteCount n) with hmem | hmem
  · exact .inr ⟨requireBytes_eq_error hmem, hmem⟩
  · exact .inl (requireBytes_eq_ok hmem)

theorem growth_cases {x : Checked Bitmask} {n : Nat} {grown : Bitmask} {bits : List Bool}
    (hx : x = do requireBits n; return grown) (hclean : grown.Clean) (hlist : grown.toList = bits)
    (hn : bits.length = n) :
    (∃ m', x = .ok m' ∧ m'.Clean ∧ m'.toList = bits) ∨
      x = .error .tooLarge ∧ addressableBytes < byteCount bits.length := by
  rcases requireBits_cases n with h | ⟨h, hmem⟩
  · exact .inl ⟨grown, by rw [hx, h]; rfl, hclean, hlist⟩
  · exact .inr ⟨by rw [hx, h]; rfl, hn ▸ hmem⟩

section Clean

variable {m : Bitmask}

/-- **One change of a clean mask** is that of its list, and leaves a clean mask. -/
theorem Clean.edit_cases (h : m.Clean) {e : Edit} (hr : e.InRange m.toList) :
    (∃ m', m.edit e = .ok m' ∧ m'.Clean ∧ m'.toList = e.onList m.toList) ∨
      m.edit e = .error .tooLarge ∧ addressableBytes < byteCount (e.onList m.toList).length := by
  -- Whatever grows the mask asks for the bytes of the grown list. Copies and trims ask for none.
  cases e with
  | set i value =>
    obtain ⟨hclean, hlist⟩ := h.set i value
    rw [← m.length_toList] at hlist
    refine growth_cases rfl hclean hlist ?_
    simp [Edit.onList]
    omega
  | resize len value =>
    have hlist := h.toList_resize len value
    rw [← m.length_toList] at hlist
    refine growth_cases rfl (h.resize len value).clean hlist ?_
    simp [Edit.onList]
    omega
  | push value n =>
    refine growth_cases rfl (h.pushMany value n).clean (h.toList_pushMany value n) ?_
    simp [Edit.onList]
  | append w =>
    have hlist := h.toList_append w
    rw [toList_window hr] at hlist
    refine growth_cases rfl (h.append w).clean hlist ?_
    have hw : w.offset + w.len ≤ w.mask.len := hr
    simp [Edit.onList]
    omega
  | appendOwn offset len =>
    have hw : offset + len ≤ m.len := m.length_toList ▸ hr
    have hlist := h.toList_append ⟨m, offset, len⟩
    rw [toList_window hw] at hlist
    have hwindow : m.window offset len = .ok ⟨m, offset, len⟩ := by
      rw [window, Checked.requireRange, Checked.require_of hw]
      rfl
    rw [edit, hwindow]
    refine growth_cases rfl (h.append _).clean hlist ?_
    simp [Edit.onList]
    omega
  | slice offset len =>
    have hw : offset + len ≤ m.len := m.length_toList ▸ hr
    refine .inl ⟨_, slice_eq hw, (tight_ofWindow _).clean, ?_⟩
    rw [toList_ofWindow, toList_window hw]
    rfl
  | trim => exact .inl ⟨m.trim, rfl, by rwa [h.trim_eq], by rw [h.trim_eq]; rfl⟩

/-- **Any changes of a clean mask** are those of its list. -/
theorem Clean.follows (h : m.Clean) {es : List Edit} (hr : Edit.AllInRange m.toList es) :
    m.Follows m.toList es := by
  -- For all clean masks at once, as each edit leaves the rest to another one.
  induction es generalizing m with
  | nil => exact .inr ⟨m, rfl, m.denotes_toList⟩
  | cons e es ih =>
    rw [Follows, edits, List.foldlM_cons]
    rcases h.edit_cases hr.1 with ⟨m', he, hclean, hlist⟩ | ⟨he, hmem⟩
    · have hrest := hr.2
      rw [← hlist] at hrest
      rw [he, List.foldl_cons, ← hlist]
      rcases ih hclean hrest with ⟨hfail, made, hmade, hmem⟩ | hdone
      · refine .inl ⟨hfail, e :: made, List.cons_prefix_cons.2 ⟨rfl, hmade⟩, ?_⟩
        rwa [List.foldl_cons, ← hlist]
      · exact .inr hdone
    · refine .inl ⟨by rw [he]; rfl, [e], List.cons_prefix_cons.2 ⟨rfl, List.nil_prefix⟩, hmem⟩

/-- Growth up to a bit past the length shows whether it is set. So a mask that follows its list
through all changes is clean. -/
theorem clean_of_follows (hmem : m.bytes.length ≤ addressableBytes)
    (h : ∀ es, Edit.AllInRange m.toList es → m.Follows m.toList es) : m.Clean := by
  intro i hi
  by_cases hbuffer : i < 8 * m.bytes.length
  -- The mask is grown so that this bit is its last. In the list it is clear.
  · have hbytes : byteCount (i + 1) ≤ m.bytes.length := by
      rw [byteCount]
      omega
    have hedits : m.edits [.resize (i + 1) false] = .ok (m.resize (i + 1) false) := by
      rw [edits, List.foldlM_cons, edit, requireBits,
        requireBytes_eq_ok (Nat.le_trans hbytes hmem)]
      rfl
    rcases h [.resize (i + 1) false] ⟨trivial, trivial⟩ with ⟨hfail, -⟩ | ⟨m', hok, hdenotes⟩
    · exact absurd (hedits.symm.trans hfail) (by simp)
    · cases hedits.symm.trans hok
      have hget := congrArg (·[i]?) hdenotes.iter
      have hgrown := bit_resize_of_lt (Nat.lt_succ_of_le hi) false i
      have hroom : i < 8 * byteCount (i + 1) := le_byteCount (i + 1)
      -- The list has no bit there before it grows, so what it gets is what it was asked to add.
      have hlist : (Edit.onList m.toList (.resize (i + 1) false))[i]? = some false := by
        have hlen : (m.toList.take (i + 1)).length = m.len := by
          rw [List.length_take, length_toList]
          omega
        rw [Edit.onList, List.getElem?_append_right (hlen ▸ hi), hlen, length_toList,
          List.getElem?_replicate, if_pos (by omega)]
      simp only [getElem?_toList, len_resize, Nat.lt_succ_self, if_true, hgrown] at hget
      simpa [hroom, hlist] using hget
  · exact bitAt_of_le (Nat.le_of_not_lt hbuffer)

end Clean

end Bitmask

/-! ## Origins -/

/-- How a mask comes about. -/
inductive Origin
  /-- A buffer is wrapped that holds the bits, and may be longer. -/
  | ofBytes (bytes : Bytes) (len : Nat)
  /-- Equal bits. -/
  | filled (len : Nat) (value : Bool)
  /-- A list of bits is packed. -/
  | ofList (bits : List Bool)
  /-- No bits, with room for some. -/
  | withRoom (len : Nat)
  /-- No bits. -/
  | empty

namespace Origin

/-- The mask, if there is memory for it and the buffer is long enough. -/
def make : Origin → Checked Bitmask
  | ofBytes bytes len => Bitmask.ofBytes bytes len
  | filled len value => Bitmask.tryFilled len value
  | ofList bits => .ok (.ofList bits)
  | withRoom len => Bitmask.withRoom len
  | empty => .ok .empty

/-- The bits that the mask is to have. -/
def bits : Origin → List Bool
  | ofBytes bytes len => (List.range len).map (bitAt bytes)
  | filled len value => List.replicate len value
  | ofList bits => bits
  | withRoom _ | empty => []

/-- The bytes of a wrapped buffer past those that the bits take are zero. -/
def Spareless : Origin → Prop
  | ofBytes bytes len => ∀ b ∈ bytes.drop (byteCount len), b = 0
  | _ => True

instance : DecidablePred Spareless
  | ofBytes bytes len => List.decidableBAll (· = 0) (bytes.drop (byteCount len))
  | filled .. | ofList _ | withRoom _ | empty => .isTrue trivial

/-- Wrapping a buffer clears the padding of the last byte and leaves the spare bytes as they are. -/
theorem ofBytes_spec {bytes : Bytes} {len : Nat} {m : Bitmask}
    (h : Bitmask.ofBytes bytes len = .ok m) :
    m.toList = (ofBytes bytes len).bits ∧ (m.Clean ↔ (ofBytes bytes len).Spareless) := by
  rw [Bitmask.ofBytes] at h
  split at h
  · cases h
    have hcount := le_byteCount len
    refine ⟨map_range_congr fun i hi => ?_, ?_⟩
    · simp [Bitmask.bit, bitAt_clearPadding, Nat.not_le.2 hi]
    · rw [Spareless, ← bitAt_eq_false_iff]
      simp only [Bitmask.Clean, Bitmask.bit, bitAt_clearPadding, bitAt_drop]
      constructor
      · intro hclean j
        have hpast : ¬ 8 * byteCount len + j < 8 * byteCount len := by omega
        simpa [hpast] using hclean (8 * byteCount len + j) (by omega)
      · intro hspare i hi
        by_cases hbyte : i < 8 * byteCount len
        · simp [hi, hbyte]
        · obtain ⟨j, rfl⟩ := Nat.exists_eq_add_of_le (Nat.le_of_not_lt hbyte)
          simp [hspare j]
  · cases h

/-- **What is made has its bits, and is clean exactly when no spare byte holds a bit.** -/
theorem make_spec {o : Origin} {m : Bitmask} (h : o.make = .ok m) :
    m.toList = o.bits ∧ (m.Clean ↔ o.Spareless) := by
  cases o with
  | ofBytes bytes len => exact ofBytes_spec h
  | filled len value =>
    obtain ⟨_, -, hm⟩ := bind_eq_ok.1 h
    cases hm
    exact ⟨Bitmask.toList_filled len value, iff_true_intro (Bitmask.tight_filled len value).clean⟩
  | ofList bits =>
    cases h
    exact ⟨Bitmask.toList_ofList bits, iff_true_intro (Bitmask.tight_ofList bits).clean⟩
  | withRoom len =>
    obtain ⟨_, -, hm⟩ := bind_eq_ok.1 h
    cases hm
    exact ⟨rfl, iff_true_intro Bitmask.tight_empty.clean⟩
  | empty =>
    cases h
    exact ⟨rfl, iff_true_intro Bitmask.tight_empty.clean⟩

/-- **A mask is the list of its bits through any changes exactly if it is not made over spare bytes
that hold bits.** Of the ways of making a mask, only wrapping a longer buffer can do that. -/
theorem follows_iff_spareless {o : Origin} {m : Bitmask} (h : o.make = .ok m) :
    (o.Spareless → ∀ es, Edit.AllInRange o.bits es → m.Follows o.bits es) ∧
      (m.bytes.length ≤ addressableBytes →
        (∀ es, Edit.AllInRange o.bits es → m.Follows o.bits es) → o.Spareless) := by
  obtain ⟨hlist, hclean⟩ := make_spec h
  rw [← hlist, ← hclean]
  exact ⟨fun hm es => hm.follows, Bitmask.clean_of_follows⟩

/-- A buffer with a zero byte to spare is cut, regrown, and sliced as the list is. -/
theorem follows_zero_spare :
    ∃ m m', (ofBytes [5, 0] 3).make = .ok m ∧
      m.edits [.resize 12 true, .set 14 true, .slice 1 13] = .ok m' ∧
        m'.countOnes = 10 := by
  have hfollows := (follows_iff_spareless (o := ofBytes [5, 0] 3) rfl).1 (by decide)
    [.resize 12 true, .set 14 true, .slice 1 13]
    ⟨trivial, trivial, (by decide : 1 + 13 ≤ 15), trivial⟩
  rcases hfollows with ⟨hfail, -⟩ | ⟨m', hok, hdenotes⟩
  · cases hfail
  · exact ⟨_, m', rfl, hok, hdenotes.countOnes⟩

/-- Growth by clear bits over a spare byte that holds bits brings these up. -/
theorem resize_takes_spare_bits :
    ∃ m, (ofBytes [0, 255] 1).make = .ok m ∧ ¬ m.Follows [false] [.resize 12 false] := by
  refine ⟨_, rfl, ?_⟩
  rintro (⟨hfail, -⟩ | ⟨m', hok, hdenotes⟩)
  · cases hfail
  · cases hok
    exact absurd hdenotes.iter (by decide)

end Origin

/-! ## Combined windows, bit by bit

Windows are combined a word at a time, and each of them starts at a bit offset of its own. Nothing
of the words is left in the result: **bit `i` of it depends on bit `i` of the windows only**, and
the buffer holds those bits and nothing else. A word that says so at its piece is all that this
takes (`spells_ofWords`).
-/

namespace Bitmask

/-- Three bits of each window, two of them absent. -/
example : conjunction [none, some ⟨.ofList [true, false, true, true], 1, 3⟩, none,
    some ⟨.ofList [true, true, false], 0, 3⟩] 3 = some (.ofList [false, true, false]) := by decide

end Bitmask

end Columnar
