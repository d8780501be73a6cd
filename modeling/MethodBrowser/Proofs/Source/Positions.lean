import Mathlib.Data.List.Induction
import MethodBrowser.Proofs.Source.Characters
import MethodBrowser.Source.Position

/-!
# Positions of characters

An index of positions is filled by reading a text from its start and counting on. This module tells the
position of a character by what stands before it (`Position.after`): its line is one more than the
newlines there, its column one more than the characters behind the last of them. That is what the index
has at each byte of the character (`PositionIndex.get_inside`).

**Order.** Reading one more character leads to a later position (`Position.before_next`), so positions
only grow along a text, and no two characters share one.
-/

namespace MethodBrowser

namespace Position

variable {p q : Position} {cs : List Char}

/-- The position after some characters. -/
def after (cs : List Char) : Position :=
  ⟨1 + cs.count '\n', 1 + (cs.reverse.takeWhile (· ≠ '\n')).length⟩

/-- An earlier line, or the same line and an earlier column. -/
def Before (p q : Position) : Prop := p.line < q.line ∨ p.line = q.line ∧ p.column < q.column

theorem Before.trans {r : Position} (h : p.Before q) (h' : q.Before r) : p.Before r := by
  unfold Before at *
  omega

theorem Before.ne (h : p.Before q) : p ≠ q := by
  rintro rfl
  unfold Before at h
  omega

theorem before_next (p : Position) (c : Char) : p.Before (p.next c) := by
  unfold next
  split
  · exact .inl (Nat.lt_succ_self _)
  · exact .inr ⟨rfl, Nat.lt_succ_self _⟩

/-- Reading one more character. -/
theorem after_concat (cs : List Char) (c : Char) : after (cs ++ [c]) = (after cs).next c := by
  unfold after next
  by_cases hc : c = '\n'
  · subst hc
    simp [Nat.add_assoc]
  · have hcount : (cs ++ [c]).count '\n' = cs.count '\n' := by
      rw [List.count_append, List.count_singleton, beq_false_of_ne hc]
      rfl
    rw [if_neg hc, hcount, List.reverse_append, List.reverse_singleton, List.singleton_append,
      List.takeWhile_cons_of_pos (by simpa using hc), List.length_cons, Nat.add_assoc]

theorem foldl_next (cs : List Char) : cs.foldl next ⟨1, 1⟩ = after cs := by
  induction cs using List.reverseRecOn with
  | nil => rfl
  | append_singleton cs c ih =>
    rw [List.foldl_append, List.foldl_cons, List.foldl_nil, ih, after_concat]

/-- Positions grow along a text. -/
theorem before_append (l : List Char) {m : List Char} (hm : m ≠ []) :
    (after l).Before (after (l ++ m)) := by
  induction m using List.reverseRecOn with
  | nil => exact absurd rfl hm
  | append_singleton m c ih =>
    have hstep : (after (l ++ m)).Before (after (l ++ (m ++ [c]))) := by
      rw [← List.append_assoc, after_concat]
      exact before_next _ c
    by_cases hnil : m = []
    · subst hnil
      simpa using hstep
    · exact (ih hnil).trans hstep

theorem line_after_le (cs : List Char) : (after cs).line ≤ 1 + cs.length :=
  Nat.add_le_add_left List.count_le_length 1

theorem column_after_le (cs : List Char) : (after cs).column ≤ 1 + cs.length := by
  have hle := (List.takeWhile_sublist (· ≠ '\n') (l := cs.reverse)).length_le
  rw [List.length_reverse] at hle
  exact Nat.add_le_add_left hle 1

/-! ## The positions of all bytes -/

theorem length_ofChars (p : Position) (cs : List Char) :
    (ofChars p cs).length = String.utf8Len cs + 1 := by
  induction cs generalizing p with
  | nil => rfl
  | cons c cs ih =>
    rw [ofChars, List.length_append, List.length_replicate, ih, String.utf8Len_cons]
    omega

/-- The bytes of a character, or the end of the text, stand where the characters before it lead. -/
theorem getElem?_ofChars (p : Position) {l r : List Char} {k : Nat}
    (hk : r = [] ∧ k = 0 ∨ ∃ c r', r = c :: r' ∧ k < c.utf8Size) :
    (ofChars p (l ++ r))[String.utf8Len l + k]? = some (l.foldl next p) := by
  induction l generalizing p with
  | nil =>
    rcases hk with ⟨rfl, rfl⟩ | ⟨c, r', rfl, hlt⟩
    · rfl
    · rw [List.nil_append, ofChars, String.utf8Len_nil, Nat.zero_add,
        List.getElem?_append_left (by rwa [List.length_replicate]), List.getElem?_replicate_of_lt hlt]
      rfl
  | cons d l ih =>
    rw [List.cons_append, ofChars, String.utf8Len_cons,
      List.getElem?_append_right (by rw [List.length_replicate]; omega), List.length_replicate,
      show String.utf8Len l + d.utf8Size + k - d.utf8Size = String.utf8Len l + k by omega, ih]
    rfl

end Position

/-- The offset is inside the character that follows `before`. -/
def Text.Inside (text : String) (before : List Char) (offset : Nat) : Prop :=
  ∃ c rest, text.toList = before ++ c :: rest ∧ String.utf8Len before ≤ offset ∧
    offset < String.utf8Len before + c.utf8Size

namespace PositionIndex

variable {text : String} {before : List Char} {offset : Nat}

/-- A byte has the position of its character. -/
theorem get_inside (h : Text.Inside text before offset) :
    (ofText text).get offset = .after before := by
  obtain ⟨c, rest, htext, hle, hlt⟩ := h
  obtain ⟨k, rfl⟩ := Nat.exists_eq_add_of_le hle
  have hentry := Position.getElem?_ofChars ⟨1, 1⟩ (l := before) (r := c :: rest)
    (.inr ⟨c, rest, rfl, Nat.lt_of_add_lt_add_left hlt⟩)
  rw [get, ofText, List.getElem?_toArray, htext, hentry, Option.getD_some, Position.foldl_next]

/-- All that is not a byte of the text has the position of its end. -/
theorem get_end (h : text.utf8ByteSize ≤ offset) :
    (ofText text).get offset = .after text.toList := by
  have hlast := Position.getElem?_ofChars ⟨1, 1⟩ (l := text.toList) (r := []) (.inl ⟨rfl, rfl⟩)
  have hlength := Position.length_ofChars ⟨1, 1⟩ text.toList
  rw [List.append_nil, Nat.add_zero, Position.foldl_next] at hlast
  have hback : (Position.ofChars ⟨1, 1⟩ text.toList).getLast? = some (.after text.toList) := by
    rw [List.getLast?_eq_getElem?, hlength, Nat.add_sub_cancel, hlast]
  rw [get, ofText, List.getElem?_toArray, List.back?_toArray, hback, Option.getD_some]
  rcases Nat.eq_or_lt_of_le h with rfl | hlt
  · rw [← String.utf8Len_toList, hlast, Option.getD_some]
  · rw [List.getElem?_eq_none (by rw [hlength, String.utf8Len_toList]; omega), Option.getD_none]

/-- Every offset has the position of some character or of the end. -/
theorem exists_get_eq (text : String) (offset : Nat) :
    ∃ before, before.length ≤ text.toList.length ∧ (ofText text).get offset = .after before := by
  rcases Nat.lt_or_ge offset text.utf8ByteSize with hlt | hge
  · rw [← String.utf8Len_toList] at hlt
    obtain ⟨l, c, r, htext, hle, hlt⟩ := Text.exists_character hlt
    refine ⟨l, ?_, get_inside ⟨c, r, htext, hle, hlt⟩⟩
    rw [htext, List.length_append]
    exact Nat.le_add_right _ _
  · exact ⟨text.toList, le_rfl, get_end hge⟩

/-- Where a character starts, and at the end of the text. -/
theorem get_cut {l r : List Char} (h : text.toList = l ++ r) :
    (ofText text).get (String.utf8Len l) = .after l := by
  cases r with
  | nil =>
    rw [List.append_nil] at h
    rw [← h]
    exact get_end (Nat.le_of_eq (String.utf8Len_toList text).symm)
  | cons c r => exact get_inside ⟨c, r, h, le_rfl, Nat.lt_add_of_pos_right c.utf8Size_pos⟩

/-- Two characters of a text with one position are the same. -/
theorem inside_inj {before' : List Char} {offset' : Nat} (h : Text.Inside text before offset)
    (h' : Text.Inside text before' offset') (heq : Position.after before = .after before') :
    before = before' := by
  obtain ⟨c, r, htext, -, -⟩ := h
  obtain ⟨c', r', htext', -, -⟩ := h'
  have hone : ∀ {a b m : List Char}, b = a ++ m → Position.after a = .after b → a = b := by
    rintro a b m rfl hafter
    by_cases hm : m = []
    · rw [hm, List.append_nil]
    · exact absurd hafter (Position.before_append a hm).ne
  rcases List.append_eq_append_iff.1 (htext.symm.trans htext') with ⟨m, hm, -⟩ | ⟨m, hm, -⟩
  · exact hone hm heq
  · exact (hone hm heq.symm).symm

/-- The first and the last character of a span. -/
theorem exists_bounds {s : Span} (hs : s.start < s.stop) (hstop : Text.IsCut text s.stop) :
    ∃ first last c rest, Text.Inside text first s.start ∧ text.toList = last ++ c :: rest ∧
      String.utf8Len (last ++ [c]) = s.stop ∧
      (ofText text).bounds s = (.after first, .after last) := by
  obtain ⟨l, r, htext, hlen⟩ := Text.isCut_iff.1 hstop
  have hne : l ≠ [] := by
    rintro rfl
    rw [String.utf8Len_nil] at hlen
    omega
  have hlast : l.dropLast ++ [l.getLast hne] = l := List.dropLast_append_getLast hne
  have hsize : String.utf8Len l.dropLast + (l.getLast hne).utf8Size = s.stop := by
    have hsum := congrArg String.utf8Len hlast
    rw [String.utf8Len_append, hlen] at hsum
    simpa using hsum
  have hlasttext : text.toList = l.dropLast ++ l.getLast hne :: r := by
    rw [htext, List.append_cons, hlast]
  have hstart : s.start < String.utf8Len text.toList := by
    rw [htext, String.utf8Len_append]
    omega
  obtain ⟨first, c, rest, hfirst⟩ := Text.exists_character hstart
  have hinside : Text.Inside text first s.start := ⟨c, rest, hfirst⟩
  have hpos := (l.getLast hne).utf8Size_pos
  have hinside' : Text.Inside text l.dropLast (s.stop - 1) :=
    ⟨_, _, hlasttext, by omega, by omega⟩
  have hempty : s.isEmpty = false := beq_false_of_ne (Nat.ne_of_lt hs)
  refine ⟨first, _, _, _, hinside, hlasttext, by rw [hlast, hlen], ?_⟩
  rw [bounds, hempty, if_neg Bool.false_ne_true, get_inside hinside, get_inside hinside']

end PositionIndex

/-! ## The theorem -/

/-- In a text that is not too long to be counted in 32 bits, every byte has the position of its
character, and what lies beyond has the position of the end. Positions grow from one character to the
next, so each character has its own. The bounds of a span are the positions of its first and its last
character. No counter leaves the 32 bits. -/
theorem positions_exact (text : String) (hlength : text.length < 2 ^ 32 - 1) :
    let index := PositionIndex.ofText text
    (∀ before offset, Text.Inside text before offset → index.get offset = .after before) ∧
      (∀ offset, text.utf8ByteSize ≤ offset → index.get offset = .after text.toList) ∧
      (∀ before c rest, text.toList = before ++ c :: rest →
        (index.get (String.utf8Len before)).Before
          (index.get (String.utf8Len before + c.utf8Size))) ∧
      (∀ before offset before' offset', Text.Inside text before offset →
        Text.Inside text before' offset' →
        (index.get offset = index.get offset' ↔ before = before')) ∧
      (∀ s : Span, s.start < s.stop → Text.IsCut text s.stop →
        ∃ first last c rest, Text.Inside text first s.start ∧ text.toList = last ++ c :: rest ∧
          String.utf8Len (last ++ [c]) = s.stop ∧
          index.bounds s = (.after first, .after last)) ∧
      ∀ offset, (index.get offset).line < 2 ^ 32 ∧ (index.get offset).column < 2 ^ 32 := by
  intro index
  refine ⟨fun before offset => PositionIndex.get_inside, fun offset => PositionIndex.get_end,
    fun before c rest htext => ?_, fun before offset before' offset' h h' => ?_,
    fun s => PositionIndex.exists_bounds, fun offset => ?_⟩
  · have hnext : text.toList = (before ++ [c]) ++ rest := by rw [htext, List.append_cons]
    have hlen : String.utf8Len before + c.utf8Size = String.utf8Len (before ++ [c]) := by
      rw [String.utf8Len_append]
      simp
    rw [hlen, PositionIndex.get_cut htext, PositionIndex.get_cut hnext]
    exact Position.before_append before (List.cons_ne_nil c [])
  · rw [PositionIndex.get_inside h, PositionIndex.get_inside h']
    exact ⟨PositionIndex.inside_inj h h', congrArg Position.after⟩
  · obtain ⟨before, hle, hget⟩ := PositionIndex.exists_get_eq text offset
    have hline := Position.line_after_le before
    have hcolumn := Position.column_after_le before
    rw [String.length_toList] at hle
    rw [hget]
    omega

/-- Accents take up two bytes each, and the second line starts behind one of them. -/
theorem positions_exact_accents :
    "é\nxé".length < 2 ^ 32 - 1 ∧ Text.Inside "é\nxé" [] 1 ∧ Text.IsCut "é\nxé" 6 ∧
      (PositionIndex.ofText "é\nxé").get 1 = ⟨1, 1⟩ ∧
      (PositionIndex.ofText "é\nxé").get 9 = ⟨2, 3⟩ ∧
      ((PositionIndex.ofText "é\nxé").get 3).line < 2 ^ 32 := by
  have hlength : "é\nxé".length < 2 ^ 32 - 1 := by decide
  have hinside : Text.Inside "é\nxé" [] 1 :=
    ⟨'é', ['\n', 'x', 'é'], by decide, by decide, by decide⟩
  obtain ⟨hbytes, hend, -, -, -, hfits⟩ := positions_exact "é\nxé" hlength
  exact ⟨hlength, hinside, Text.isCut_end _, hbytes [] 1 hinside, hend 9 (by decide), (hfits 3).1⟩

end MethodBrowser
