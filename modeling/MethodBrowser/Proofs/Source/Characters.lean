import Mathlib.Data.String.Basic
import MethodBrowser.Proofs.Source.Text

/-!
# Where characters start

Offsets count bytes, and a character may take up more than one. A text can be taken apart only where a
character starts and at its end (`Text.IsCut`).
-/

namespace MethodBrowser

namespace Text

/-- A character of the text starts at the offset, or the text ends there. -/
def IsCut (text : String) (i : Nat) : Prop := String.Pos.Raw.IsValid text ⟨i⟩

variable {text : String} {i : Nat}

theorem isCut_iff : IsCut text i ↔ ∃ l r, text.toList = l ++ r ∧ String.utf8Len l = i := by
  rw [IsCut, String.Pos.Raw.isValid_iff_exists_append]
  constructor
  · rintro ⟨s, t, rfl, hi⟩
    refine ⟨s.toList, t.toList, String.toList_append, ?_⟩
    rw [String.utf8Len_toList]
    exact (congrArg String.Pos.Raw.byteIdx hi).symm
  · rintro ⟨l, r, htext, rfl⟩
    refine ⟨String.ofList l, String.ofList r, ?_, ?_⟩
    · rw [← String.ofList_append, ← htext, String.ofList_toList]
    · rw [String.rawEndPos_ofList]

theorem isCut_of_append {l r : List Char} (h : text.toList = l ++ r) :
    IsCut text (String.utf8Len l) :=
  isCut_iff.2 ⟨l, r, h, rfl⟩

/-- The text can be cut after each of its characters. -/
theorem isCut_after {l r : List Char} {c : Char} (h : text.toList = l ++ c :: r) :
    IsCut text (String.utf8Len l + c.utf8Size) := by
  have hcut := isCut_of_append (l := l ++ [c]) (h.trans (List.append_cons ..))
  simpa using hcut

theorem isCut_zero (text : String) : IsCut text 0 := isCut_of_append (l := []) rfl

theorem isCut_end (text : String) : IsCut text text.utf8ByteSize := by
  rw [← String.utf8Len_toList]
  exact isCut_of_append (r := []) (List.append_nil _).symm

theorem IsCut.le (h : IsCut text i) : i ≤ text.utf8ByteSize := by
  obtain ⟨l, r, htext, rfl⟩ := isCut_iff.1 h
  rw [← String.utf8Len_toList, htext, String.utf8Len_append]
  exact Nat.le_add_right _ _

/-- The characters of a text that are cut off at `i`, and those between `i` and a later cut. -/
theorem IsCut.extend {j : Nat} {l r : List Char} (htext : text.toList = l ++ r) (hj : IsCut text j)
    (hle : String.utf8Len l ≤ j) :
    ∃ w r', r = w ++ r' ∧ j = String.utf8Len l + String.utf8Len w := by
  obtain ⟨l', r', htext', rfl⟩ := isCut_iff.1 hj
  obtain ⟨w, rfl, rfl⟩ := append_eq_append_of_le (htext.symm.trans htext') hle
  exact ⟨w, r', rfl, String.utf8Len_append ..⟩

/-- Every byte of a text is one of some character. -/
theorem exists_character {cs : List Char} (h : i < String.utf8Len cs) :
    ∃ l c r, cs = l ++ c :: r ∧ String.utf8Len l ≤ i ∧ i < String.utf8Len l + c.utf8Size := by
  induction cs generalizing i with
  | nil => simp at h
  | cons c cs ih =>
    by_cases hi : i < c.utf8Size
    · exact ⟨[], c, cs, rfl, Nat.zero_le _, by simpa using hi⟩
    · rw [String.utf8Len_cons] at h
      obtain ⟨l, d, r, rfl, hle, hlt⟩ := ih (i := i - c.utf8Size) (by omega)
      refine ⟨c :: l, d, r, rfl, ?_, ?_⟩ <;> rw [String.utf8Len_cons] <;> omega

/-- The span can be cut out of the text: it is in range, does not run backwards, and neither of its ends
is inside a character. -/
structure HasSpan (text : String) (s : Span) : Prop where
  le : s.start ≤ s.stop
  le_size : s.stop ≤ text.utf8ByteSize
  start : IsCut text s.start
  stop : IsCut text s.stop

theorem hasSpan_of_cuts {s : Span} (hle : s.start ≤ s.stop) (hstart : IsCut text s.start)
    (hstop : IsCut text s.stop) : HasSpan text s :=
  ⟨hle, hstop.le, hstart, hstop⟩

theorem hasSpan_of_append {l w r : List Char} (h : text.toList = l ++ w ++ r) :
    HasSpan text ⟨String.utf8Len l, String.utf8Len l + String.utf8Len w⟩ := by
  refine hasSpan_of_cuts (Nat.le_add_right _ _) ?_ ?_
  · exact isCut_of_append (h.trans (List.append_assoc ..))
  · have hcut := isCut_of_append h
    rwa [String.utf8Len_append] at hcut

end Text

end MethodBrowser
