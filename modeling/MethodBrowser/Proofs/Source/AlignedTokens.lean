import MethodBrowser.Proofs.Source.Alignment

/-!
# Tokens of aligned sources

Words, operators, keywords and punctuation stand at corresponding places of aligned sources. For
each reader there are two facts: what it finds in one source it finds in the other, moved along,
and the ends of what it finds have counterparts.
-/

namespace MethodBrowser

namespace Cell

theorem isBinary_of_isLetter {c : Cell} (h : c.isLetter = true) :
    (c.isCode && Byte.isBinary c.byte) = false := by
  simp only [isLetter, Bool.and_eq_true] at h
  simp [isBinary_eq_false h.2]

/-- Neither `#` nor a colon stands in a word. -/
theorem isSymbolMark_of_isWordChar {c : Cell} (h : c.isWordChar = true) :
    (c.byte == '#'.toUInt8 || c.byte == ':'.toUInt8) = false := by
  have h₁ := byte_ne_of_isWordChar h (b := '#'.toUInt8) (by decide)
  have h₂ := byte_ne_of_isWordChar h (b := ':'.toUInt8) (by decide)
  simp [h₁, h₂]

end Cell

namespace Source

variable {src : Source} {i l : Nat} {sp : Span}

/-- A word is read from its first letter on. -/
theorem wordAt?_eq (src : Source) (i l : Nat) :
    src.wordAt? i l =
      if i < l && src.holds Cell.isLetter i && src.isWordStart i
          && src.isCodeSpan ⟨i, src.identEnd i l⟩ then some ⟨i, src.identEnd i l⟩ else none := by
  by_cases h : i < l ∧ src.holds Cell.isLetter i = true
  · have hident : src.holds (fun c => Byte.isIdent c.byte) i = true :=
      holds_of_imp (fun c hc => Cell.isIdent_of_isWordChar (Cell.isWordChar_of_isLetter hc)) h.2
    have hend : src.identEnd i l = src.identEnd (i + 1) l := runEnd_of_holds h.1 hident
    rw [hend]
    simp only [wordAt?]
    change (if (_ && src.holds Cell.isLetter i && _) = true then _ else _) = _
    split <;> simp_all
  · simp only [wordAt?]
    change (if (_ && src.holds Cell.isLetter i && _) = true then _ else _) = _
    grind

theorem wordAt?_eq_some (h : src.wordAt? i l = some sp) :
    i < l ∧ src.holds Cell.isLetter i = true ∧ src.isWordStart i = true ∧
      sp = ⟨i, src.identEnd i l⟩ := by
  rw [wordAt?_eq] at h
  grind

/-- No word starts inside a word. -/
theorem Inner.wordAt? (h : src.Inner i) : src.wordAt? i l = none := by
  have hnot : src.isWordStart i = false := by
    have hident : src.byteIs Byte.isIdent (i - 1) = true :=
      holds_of_imp (fun c => Cell.isIdent_of_isWordChar) h.before
    have hpos := h.pos
    simp only [isWordStart, hident, Bool.not_true, Bool.or_false, beq_eq_false_iff_ne]
    omega
  rw [wordAt?_eq, hnot]
  simp

theorem Inner.keywordAt? (h : src.Inner i) : src.keywordAt? i l = none := by
  simp [Source.keywordAt?, h.wordAt?]

/-- The characters that code is punctuated with stand in no word. -/
theorem codeAt_of_isWordChar {x : Char} (hch : Byte.isIdent x.toUInt8 = false)
    (h : src.holds Cell.isWordChar i = true) : src.codeAt i x = false := by
  refine holds_eq_of (fun c hc => ?_) h
  simp [Cell.isCodeChar, Cell.byte_ne_of_isWordChar hc hch]

/-- A cell holds one character only. -/
theorem codeAt_ne {a b : Char} (hab : a.toUInt8 ≠ b.toUInt8) (h : src.codeAt i a = true) :
    src.codeAt i b = false := by
  refine holds_eq_of (fun c hc => ?_) h
  simp only [Cell.isCodeChar, Bool.and_eq_true, beq_iff_eq] at hc
  simp [Cell.isCodeChar, hc.2, hab]

theorem holds_of_find? {p : Cell → Bool} {j : Nat} (h : src.find? p i l = some j) :
    src.holds p j = true := by
  simp only [find?] at h
  grind

theorem keywordAt?_eq_some (h : src.keywordAt? i l = some sp) :
    ∃ word, src.wordAt? i l = some word ∧ word.stop < l ∧ src.codeAt word.stop ':' = true ∧
      sp = ⟨i, word.stop + 1⟩ := by
  simp only [keywordAt?] at h
  split at h
  · simp at h
  · next word hw =>
    refine ⟨word, hw, ?_⟩
    simp only [isKeywordColon] at h
    grind

end Source

namespace Alignment

variable {s t : Source} (A : Alignment s t) {i l : Nat} {sp : Span}

/-- The counterpart of a span. -/
def shiftSpan (sp : Span) : Span := ⟨A.shift sp.start, A.shift sp.stop⟩

/-- Both ends of the span have counterparts. -/
def MarkSpan (sp : Span) : Prop := A.mark sp.start ∧ A.mark sp.stop

/-! ## Words -/

theorem wordAt?_shift (hi : A.mark i) (hl : A.mark l) :
    t.wordAt? (A.shift i) (A.shift l) = (s.wordAt? i l).map A.shiftSpan := by
  obtain ⟨hmark, hend⟩ := A.identEnd_shift hi hl
  rw [Source.wordAt?_eq, Source.wordAt?_eq, hend, A.holds_shift Cell.blind_isLetter hi,
    A.isWordStart_shift hi, A.isCodeSpan_shift hi hmark]
  simp only [A.shift_lt_iff hi hl]
  split <;> rfl

theorem markSpan_of_wordAt? (hi : A.mark i) (hl : A.mark l) (h : s.wordAt? i l = some sp) :
    A.MarkSpan sp := by
  obtain ⟨-, -, -, rfl⟩ := Source.wordAt?_eq_some h
  exact ⟨hi, (A.identEnd_shift hi hl).1⟩

/-! ## Punctuation -/

theorem blt_shift (hi : A.mark i) : Nat.blt 0 (A.shift i) = Nat.blt 0 i := by
  have hpos := A.pos hi
  rw [Bool.eq_iff_iff, Nat.blt_eq, Nat.blt_eq]
  omega

theorem isAssignment_shift (hi : A.mark i) : t.isAssignment (A.shift i) = s.isAssignment i := by
  simp only [Source.isAssignment, A.codeAt_shift (x := ':') (by decide) hi]
  cases h : s.codeAt i ':' with
  | false => rfl
  | true =>
    have hk := A.kept_of_codeAt (by decide) hi h
    rw [← hk.shift_next, A.codeAt_shift (by decide) hk.next]

theorem isKeywordColon_shift (hi : A.mark i) :
    t.isKeywordColon (A.shift i) = s.isKeywordColon i := by
  simp only [Source.isKeywordColon, A.isAssignment_shift hi]
  rw [A.codeAt_shift (by decide) hi]

/-- Before a period that a digit follows, a digit stands in both sources or in none. -/
def Steady : Prop :=
  ∀ i, A.mark i → s.codeAt i '.' = true → s.byteIs Byte.isDigit (i + 1) = true →
    t.byteIs Byte.isDigit (A.shift i - 1) = s.byteIs Byte.isDigit (i - 1)

theorem steady_of_keyword (hkey : A.keyword) : A.Steady := by
  intro i hi hperiod _
  rcases A.back hi with ⟨hcell, -⟩ | ⟨k, n, m, -, hw, rfl⟩
  · exact Source.holds_congr hcell
  · -- A respelled word is followed by a colon, not by a period.
    rw [Source.codeAt_ne (by decide) (hw.colon hkey).1] at hperiod
    simp at hperiod

/-- The periods keep their roles. -/
theorem isTerminator_shift (hsteady : A.Steady) (hi : A.mark i) :
    t.isTerminator (A.shift i) = s.isTerminator i := by
  simp only [Source.isTerminator]
  rw [A.codeAt_shift (by decide) hi]
  cases h : s.codeAt i '.' with
  | false => rfl
  | true =>
    have hk := A.kept_of_codeAt (by decide) hi h
    rw [← hk.shift_next, A.isDigit_shift hk.next, A.blt_shift hi]
    cases hdigit : s.byteIs Byte.isDigit (i + 1) with
    | false => simp only [Bool.and_false]
    | true => rw [hsteady i hi h hdigit]

/-! ## Operators and keywords -/

theorem binaryAt?_shift (hi : A.mark i) (hl : A.mark l) :
    t.binaryAt? (A.shift i) (A.shift l) = (s.binaryAt? i l).map A.shiftSpan := by
  obtain ⟨hmark, hend⟩ := A.runEnd_shift (.inl fun _ => Cell.isBinary_of_isLetter) hi hl
  have hsize := A.shift_runEnd_sub (l := l) (fun _ => Cell.isBinary_of_isLetter) hi
  simp only [Source.binaryAt?, hend, hsize, A.shift_lt_iff hi hmark]
  split <;> rfl

theorem markSpan_of_binaryAt? (hi : A.mark i) (hl : A.mark l) (h : s.binaryAt? i l = some sp) :
    A.MarkSpan sp := by
  have hmark := (A.runEnd_shift (.inl fun _ => Cell.isBinary_of_isLetter) hi hl).1
  simp only [Source.binaryAt?] at h
  split at h
  · obtain rfl := Option.some.inj h
    exact ⟨hi, hmark⟩
  · simp at h

theorem keywordAt?_shift (hi : A.mark i) (hl : A.mark l) :
    t.keywordAt? (A.shift i) (A.shift l) = (s.keywordAt? i l).map A.shiftSpan := by
  have hbefore : t.byteIs (fun b => b == '#'.toUInt8 || b == ':'.toUInt8) (A.shift i - 1) =
      s.byteIs (fun b => b == '#'.toUInt8 || b == ':'.toUInt8) (i - 1) :=
    A.holds_before (fun _ => Cell.isSymbolMark_of_isWordChar) hi
  simp only [Source.keywordAt?, A.wordAt?_shift hi hl]
  cases h : s.wordAt? i l with
  | none => rfl
  | some word =>
    have hmark := (A.markSpan_of_wordAt? hi hl h).2
    simp only [Option.map_some, shiftSpan, hbefore, A.blt_shift hi,
      A.isKeywordColon_shift hmark, A.shift_lt_iff hmark hl]
    split
    · next hif =>
      simp only [Source.isKeywordColon, Bool.and_eq_true] at hif
      have hk := A.kept_of_codeAt (by decide) hmark hif.1.2.1
      simp only [Option.map_some, shiftSpan, hk.shift_next]
    · rfl

theorem markSpan_of_keywordAt? (hi : A.mark i) (hl : A.mark l)
    (h : s.keywordAt? i l = some sp) : A.MarkSpan sp := by
  obtain ⟨word, hw, -, hcolon, rfl⟩ := Source.keywordAt?_eq_some h
  have hmark := (A.markSpan_of_wordAt? hi hl hw).2
  exact ⟨hi, (A.kept_of_codeAt (by decide) hmark hcolon).next⟩

theorem keywords_shift (h : A.MarkSpan sp) :
    t.keywords (A.shiftSpan sp) = (s.keywords sp).map A.shiftSpan :=
  A.filterMap_offsets (fun _ hi _ => A.keywordAt?_shift hi h.2) (fun _ hk => hk.keywordAt?)
    (fun _ hk => hk.keywordAt?) h.1 h.2

theorem markSpan_of_mem_keywords {token : Span} (h : A.MarkSpan sp)
    (ht : token ∈ s.keywords sp) : A.MarkSpan token := by
  obtain ⟨k, hk, hfound⟩ := List.mem_filterMap.1 ht
  rw [Span.mem_offsets] at hk
  have hinner : ¬s.Inner k := fun hin => by simp [hin.keywordAt?] at hfound
  have hmark := A.mark_of_not_inner h.1 h.2 hk.1 (by omega) hinner
  exact A.markSpan_of_keywordAt? hmark h.2 hfound

end Alignment

end MethodBrowser
