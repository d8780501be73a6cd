import MethodBrowser.Proofs.Source.AlignedTokens
import MethodBrowser.Send.Basic

/-!
# The region of sends in aligned sources

The preamble of a method, its literal arrays and the temporaries of its blocks stand at
corresponding places of aligned sources. So the part of the method in which sends are looked for
corresponds, too.
-/

namespace MethodBrowser

namespace Nesting

/-- The characters of words open and close nothing. -/
theorem step?_of_isIdent {b : UInt8} (h : Byte.isIdent b = true) (n : Nesting) :
    n.step? b = some n := by
  have hne : ∀ c : Char, isIdentRest c = false → Char.ofUInt8 b ≠ c := by
    rintro c hc rfl
    rw [show isIdentRest (Char.ofUInt8 b) = true from h] at hc
    simp at hc
  unfold step?
  split
  · exact absurd ‹_› (hne _ (by decide))
  · exact absurd ‹_› (hne _ (by decide))
  · exact absurd ‹_› (hne _ (by decide))
  · exact absurd ‹_› (hne _ (by decide))
  · exact absurd ‹_› (hne _ (by decide))
  · exact absurd ‹_› (hne _ (by decide))
  · rfl

/-- White space opens and closes nothing. -/
theorem step?_of_isBlank {b : UInt8} (h : Byte.isBlank b = true) (n : Nesting) :
    n.step? b = some n := by
  simp only [Byte.isBlank, Bool.or_eq_true, beq_iff_eq] at h
  rcases h with (((rfl | rfl) | rfl) | rfl) | rfl <;> rfl

end Nesting

namespace Source

variable {src : Source} {i l m : Nat} {n : Nesting}

theorem codeByte?_of_isWordChar (h : src.holds Cell.isWordChar i = true) :
    ∃ b, src.codeByte? i = some b ∧ Byte.isIdent b = true := by
  simp only [holds, Option.any_eq_true] at h
  obtain ⟨⟨b, kind⟩, hc, hw⟩ := h
  simp only [Cell.isWordChar, Cell.isCode, Bool.and_eq_true, beq_iff_eq] at hw
  obtain ⟨rfl, hb⟩ := hw
  exact ⟨b, by simp [codeByte?, hc], hb⟩

theorem codeByte?_of_codeAt {x : Char} (h : src.codeAt i x = true) :
    src.codeByte? i = some x.toUInt8 := by
  simp only [codeAt, holds, Option.any_eq_true] at h
  obtain ⟨⟨b, kind⟩, hc, hw⟩ := h
  simp only [Cell.isCodeChar, Cell.isCode, Bool.and_eq_true, beq_iff_eq] at hw
  obtain ⟨rfl, rfl⟩ := hw
  simp [codeByte?, hc]

theorem nest_of_isWordChar (h : src.holds Cell.isWordChar i = true) : src.nest n i = n := by
  obtain ⟨b, hb, hident⟩ := codeByte?_of_isWordChar h
  simp [nest, hb, Nesting.step, Nesting.step?_of_isIdent hident]

theorem groupEnd_of_le (h : l ≤ i) : src.groupEnd n i l = l := by
  rw [groupEnd, if_neg (by omega)]

/-- A group does not end in a word. -/
theorem groupEnd_add (hn : n.isTopLevel = false) (hm : i + m ≤ l)
    (h : ∀ k < m, src.holds Cell.isWordChar (i + k) = true) :
    src.groupEnd n i l = src.groupEnd n (i + m) l := by
  induction m generalizing i with
  | zero => rfl
  | succ m ih =>
    obtain ⟨b, hb, hident⟩ := codeByte?_of_isWordChar (h 0 (by omega))
    rw [show i + (m + 1) = i + 1 + m by omega, ← ih (by omega) (holds_tail h)]
    conv_lhs => rw [groupEnd, if_pos (by omega)]
    simp only [Nat.add_zero] at hb
    simp [hb, Nesting.step?_of_isIdent hident, hn]

theorem literalArraysFrom_of_le (h : l ≤ i + 1) : src.literalArraysFrom i l = [] := by
  rw [literalArraysFrom, dif_neg (by omega)]

theorem literalArraysFrom_of_opens (hlt : i + 1 < l) (h : src.opensArray i = true) :
    src.literalArraysFrom i l =
      ⟨i, src.groupEnd .empty (i + 1) l⟩ ::
        src.literalArraysFrom (src.groupEnd .empty (i + 1) l) l := by
  conv_lhs => rw [literalArraysFrom, dif_pos hlt, if_pos h]

theorem literalArraysFrom_of_not_opens (h : src.opensArray i = false) :
    src.literalArraysFrom i l = src.literalArraysFrom (i + 1) l := by
  conv_lhs => rw [literalArraysFrom]
  split
  · simp [h]
  · rw [literalArraysFrom_of_le (by omega)]

/-- No literal array opens inside a word. -/
theorem literalArraysFrom_add (h : ∀ k < m, src.holds Cell.isWordChar (i + k) = true) :
    src.literalArraysFrom i l = src.literalArraysFrom (i + m) l := by
  induction m generalizing i with
  | zero => rfl
  | succ m ih =>
    have hopens : src.opensArray i = false := by
      have h₀ : src.codeAt i '#' = false := codeAt_of_isWordChar (by decide) (h 0 (by omega))
      simp [opensArray, h₀]
    rw [literalArraysFrom_of_not_opens hopens, ih (holds_tail h), show i + (m + 1) = i + 1 + m by omega]

theorem pragmasFrom_of_none (h : src.pragmaAt? (src.skipTrivia i) = none) :
    src.pragmasFrom i = ([], src.skipTrivia i) := by
  rw [pragmasFrom]
  split
  · rfl
  · simp_all

theorem pragmasFrom_of_some {pragma : Span} (h : src.pragmaAt? (src.skipTrivia i) = some pragma) :
    src.pragmasFrom i =
      (pragma :: (src.pragmasFrom pragma.stop).1, (src.pragmasFrom pragma.stop).2) := by
  rw [pragmasFrom]
  split <;> simp_all

end Source

namespace Alignment

variable {s t : Source} (A : Alignment s t) {i l : Nat} {sp : Span}

/-! ## Literal arrays -/

theorem codeByte?_shift (hk : A.Kept i) : t.codeByte? (A.shift i) = s.codeByte? i := by
  simp only [Source.codeByte?, hk.cell]

theorem nest_shift {n : Nesting} (hk : A.Kept i) : t.nest n (A.shift i) = s.nest n i := by
  simp only [Source.nest, A.codeByte?_shift hk]

theorem groupEnd_shift (n : Nesting) (hn : n.isTopLevel = false) (hi : A.mark i)
    (hl : A.mark l) :
    A.mark (s.groupEnd n i l) ∧
      t.groupEnd n (A.shift i) (A.shift l) = A.shift (s.groupEnd n i l) := by
  rcases Nat.lt_or_ge l i with hlt | hle
  · have := (A.shift_lt_iff hl hi).2 hlt
    rw [Source.groupEnd_of_le (by omega), Source.groupEnd_of_le (by omega)]
    exact ⟨hl, rfl⟩
  · refine A.induct (motive := fun i => ∀ n : Nesting, n.isTopLevel = false →
      A.mark (s.groupEnd n i l) ∧
        t.groupEnd n (A.shift i) (A.shift l) = A.shift (s.groupEnd n i l))
      hl ?stop ?kept ?word hi hle n hn
    case stop =>
      intro n _
      rw [Source.groupEnd_of_le (Nat.le_refl _), Source.groupEnd_of_le (Nat.le_refl _)]
      exact ⟨hl, rfl⟩
    case kept =>
      intro i hi hlt hk ih n hn
      have hlt' := (A.shift_lt_iff hi hl).2 hlt
      rw [Source.groupEnd.eq_def s, Source.groupEnd.eq_def t, if_pos hlt, if_pos hlt',
        A.codeByte?_shift hk, ← hk.shift_next]
      split
      · exact ih n hn
      · split
        · exact ⟨hk.next, rfl⟩
        · split
          · exact ⟨hk.next, rfl⟩
          · next hn' => exact ih _ (by simpa using hn')
    case word =>
      intro i k m hi hk hw ih n hn
      have hm := (A.shift_le_iff hw.next hl).2 hk
      rw [hw.shift_next] at hm
      rw [Source.groupEnd_add hn hk hw.old.chars, Source.groupEnd_add hn hm hw.new.chars,
        ← hw.shift_next]
      exact ih n hn

theorem opensArray_shift (hi : A.mark i) : t.opensArray (A.shift i) = s.opensArray i := by
  simp only [Source.opensArray]
  rw [A.codeAt_shift (by decide) hi]
  cases h : s.codeAt i '#' with
  | false => rfl
  | true =>
    have hk := A.kept_of_codeAt (by decide) hi h
    rw [← hk.shift_next, A.codeAt_shift (by decide) hk.next, A.codeAt_shift (by decide) hk.next]

/-- A group that starts with its opening bracket is read on one level down. -/
theorem groupEnd_opener_shift (hi : A.mark i) (hl : A.mark l)
    (h : s.codeAt i '(' = true ∨ s.codeAt i '[' = true) :
    A.mark (s.groupEnd .empty i l) ∧
      t.groupEnd .empty (A.shift i) (A.shift l) = A.shift (s.groupEnd .empty i l) := by
  have hk : A.Kept i := h.elim (A.kept_of_codeAt (by decide) hi) (A.kept_of_codeAt (by decide) hi)
  have hlt := A.shift_lt_iff hi hl
  rw [Source.groupEnd.eq_def s, Source.groupEnd.eq_def t, A.codeByte?_shift hk, ← hk.shift_next]
  by_cases hil : i < l
  · rw [if_pos hil, if_pos (hlt.2 hil)]
    have hbyte : s.codeByte? i = some '('.toUInt8 ∨ s.codeByte? i = some '['.toUInt8 :=
      h.imp Source.codeByte?_of_codeAt Source.codeByte?_of_codeAt
    rcases hbyte with hb | hb <;> rw [hb] <;> exact A.groupEnd_shift _ rfl hk.next hl
  · rw [if_neg hil, if_neg (by omega)]
    exact ⟨hl, rfl⟩

theorem literalArraysFrom_shift (hi : A.mark i) (hl : A.mark l) :
    t.literalArraysFrom (A.shift i) (A.shift l) = (s.literalArraysFrom i l).map A.shiftSpan ∧
      ∀ array ∈ s.literalArraysFrom i l, A.MarkSpan array := by
  induction hd : l - i using Nat.strongRecOn generalizing i with
  | ind d ih =>
    rcases Nat.lt_or_ge i l with hlt | hle
    · rcases A.step hi (by have := A.le_size hl; omega) with hk | ⟨n, m, hw⟩
      · cases hopens : s.opensArray i with
        | false =>
          rw [Source.literalArraysFrom_of_not_opens hopens,
            Source.literalArraysFrom_of_not_opens ((A.opensArray_shift hi).trans hopens),
            ← hk.shift_next]
          exact ih (l - (i + 1)) (by omega) hk.next rfl
        | true =>
          have hlt' := A.shift_lt_iff hk.next hl
          rw [hk.shift_next] at hlt'
          by_cases hin : i + 1 < l
          · have hopens' := (A.opensArray_shift hi).trans hopens
            simp only [Source.opensArray, Bool.and_eq_true, Bool.or_eq_true] at hopens
            have hgroup := s.lt_groupEnd .empty hin
            obtain ⟨hmark, hend⟩ := A.groupEnd_opener_shift hk.next hl hopens.2
            rw [hk.shift_next] at hend
            obtain ⟨hrest, hmarks⟩ :=
              ih (l - s.groupEnd .empty (i + 1) l) (by omega) hmark rfl
            rw [Source.literalArraysFrom_of_opens hin (by simp [Source.opensArray, hopens]),
              Source.literalArraysFrom_of_opens (hlt'.2 hin) hopens', hend, hrest]
            exact ⟨rfl, List.forall_mem_cons.2 ⟨⟨hi, hmark⟩, hmarks⟩⟩
          · rw [Source.literalArraysFrom_of_le (by omega),
              Source.literalArraysFrom_of_le (by omega)]
            simp
      · have hpos := hw.old.pos
        rw [Source.literalArraysFrom_add hw.old.chars, Source.literalArraysFrom_add hw.new.chars,
          ← hw.shift_next]
        exact ih (l - (i + n)) (by omega) hw.next rfl
    · have := (A.shift_le_iff hl hi).2 hle
      rw [Source.literalArraysFrom_of_le (by omega), Source.literalArraysFrom_of_le (by omega)]
      simp

theorem literalArrays_shift (h : A.MarkSpan sp) :
    t.literalArrays (A.shiftSpan sp) = (s.literalArrays sp).map A.shiftSpan ∧
      ∀ array ∈ s.literalArrays sp, A.MarkSpan array :=
  A.literalArraysFrom_shift h.1 h.2

/-! ## Block temporaries -/

theorem skipParameters_shift (hi : A.mark i) (hl : A.mark l) :
    A.mark (s.skipParameters i l) ∧
      t.skipParameters (A.shift i) (A.shift l) = A.shift (s.skipParameters i l) := by
  induction hd : l - i using Nat.strongRecOn generalizing i with
  | ind d ih =>
    have hcolon := A.codeAt_shift (x := ':') (by decide) hi
    rw [Source.skipParameters.eq_def s, Source.skipParameters.eq_def t]
    simp only [hcolon, A.shift_lt_iff hi hl]
    by_cases h : (i < l && s.codeAt i ':') = true
    · simp only [Bool.and_eq_true, decide_eq_true_eq] at h
      have hk := A.kept_of_codeAt (by decide) hi h.2
      obtain ⟨hident, hident'⟩ := A.identEnd_shift hk.next hl
      obtain ⟨hgap, hgap'⟩ := A.skipGap_shift hident hl
      have hsame := A.shift_inj hident hk.next
      have h₁ := s.le_identEnd (i + 1) l
      have h₂ := s.le_skipGap (s.identEnd (i + 1) l) l
      rw [hk.shift_next] at hident' hsame
      simp only [h, hident', hgap', hsame, decide_true, Bool.and_true, dite_true]
      split
      · exact ⟨hi, rfl⟩
      · exact ih _ (by omega) hgap rfl
    · simp [h, hi]

theorem blockBodyAt?_shift (hk : A.Kept i) (hl : A.mark l) :
    t.blockBodyAt? (A.shift i) (A.shift l) = (s.blockBodyAt? i l).map A.shift ∧
      ∀ bar ∈ s.blockBodyAt? i l, A.mark bar := by
  obtain ⟨hfirst, hfirst'⟩ := A.skipGap_shift hk.next hl
  obtain ⟨hafter, hafter'⟩ := A.skipParameters_shift hfirst hl
  rw [hk.shift_next] at hfirst'
  have hsame := A.shift_inj hafter hfirst
  have hbar := A.codeAt_shift (x := '|') (by decide) hafter
  simp only [Source.blockBodyAt?, hfirst', hafter', hsame, hbar]
  split
  · simpa using hfirst
  · split
    · next h =>
      have hk' := A.kept_of_codeAt (by decide) hafter h
      obtain ⟨hbody, hbody'⟩ := A.skipGap_shift hk'.next hl
      rw [hk'.shift_next] at hbody'
      simp only [hbody', Option.map_some, Option.mem_some_iff, forall_eq', true_and]
      exact hbody
    · simp

theorem uniform_isName :
    Cell.Uniform fun c => c.isCode && (Byte.isIdent c.byte || Byte.isBlank c.byte) :=
  .inr fun c hc => by
    simp only [Cell.isWordChar, Bool.and_eq_true] at hc
    simp [hc]

theorem blockTemporariesAt?_shift (hi : A.mark i) (hl : A.mark l) :
    t.blockTemporariesAt? (A.shift i) (A.shift l) =
        (s.blockTemporariesAt? i l).map A.shiftSpan ∧
      ∀ block ∈ s.blockTemporariesAt? i l, A.MarkSpan block := by
  simp only [Source.blockTemporariesAt?]
  rw [A.codeAt_shift (by decide) hi]
  cases hopen : s.codeAt i '[' with
  | false => simp
  | true =>
    have hk := A.kept_of_codeAt (by decide) hi hopen
    obtain ⟨hbody, hmark⟩ := A.blockBodyAt?_shift hk hl
    rw [hbody]
    cases hb : s.blockBodyAt? i l with
    | none => simp
    | some bar =>
      have hbar : A.mark bar := hmark bar hb
      simp only [Option.map_some, if_true]
      rw [A.codeAt_shift (by decide) hbar]
      simp only [A.shift_lt_iff hbar hl]
      split
      · next hin =>
        simp only [Bool.and_eq_true, decide_eq_true_eq] at hin
        have hk' := A.kept_of_codeAt (by decide) hbar hin.2
        have huniform := Cell.uniform_not_isCodeChar (x := '|') (by decide)
        rw [← hk'.shift_next, A.find?_shift huniform hk'.next hl]
        cases hf : s.find? (·.isCodeChar '|') (bar + 1) l with
        | none => simp
        | some close =>
          have hclose := A.mark_of_find? huniform hk'.next hl hf
          have hkc := A.kept_of_codeAt (by decide) hclose (Source.holds_of_find? hf)
          simp only [Option.map_some]
          rw [A.all_holds_shift uniform_isName hk'.next hclose]
          split
          · simp only [Option.map_some, shiftSpan, hkc.shift_next, Option.mem_some_iff, forall_eq',
              true_and]
            exact ⟨hbar, hkc.next⟩
          · simp
      · simp

theorem blockTemporaries_shift (h : A.MarkSpan sp) :
    t.blockTemporaries (A.shiftSpan sp) = (s.blockTemporaries sp).map A.shiftSpan ∧
      ∀ block ∈ s.blockTemporaries sp, A.MarkSpan block := by
  have hinner : ∀ {src : Source} {k l : Nat}, src.Inner k → src.blockTemporariesAt? k l = none := by
    intro src k l hk
    simp [Source.blockTemporariesAt?, Source.codeAt_of_isWordChar (x := '[') (by decide) hk.here]
  refine ⟨A.filterMap_offsets (fun _ hi _ => (A.blockTemporariesAt?_shift hi h.2).1)
    (fun _ => hinner) (fun _ => hinner) h.1 h.2, fun block hblock => ?_⟩
  obtain ⟨k, hk, hfound⟩ := List.mem_filterMap.1 hblock
  rw [Span.mem_offsets] at hk
  have hnot : ¬s.Inner k := fun hin => by simp [hinner hin] at hfound
  have hmark := A.mark_of_not_inner h.1 h.2 hk.1 (by omega) hnot
  exact (A.blockTemporariesAt?_shift hmark h.2).2 block hfound

/-! ## The preamble -/

theorem uniform_trivia : Cell.Uniform fun c => !c.isCode || Byte.isBlank c.byte :=
  .inl fun c hc => by
    simp [Cell.isCode, Cell.kind_of_isLetter hc, Cell.isBlank_eq_false_of_isLetter hc]

theorem skipTrivia_shift (hi : A.mark i) :
    A.mark (s.skipTrivia i) ∧ t.skipTrivia (A.shift i) = A.shift (s.skipTrivia i) := by
  have h := A.runEnd_shift uniform_trivia hi A.mark_size
  rw [A.shift_size] at h
  exact h

/-- What is enclosed by the character at `i` and the next `x`. -/
theorem enclosed_shift {x : Char} (hch : Byte.isIdent x.toUInt8 = false)
    (hch' : Byte.isIdentStart x.toUInt8 = false) (hi : A.mark i) (hk : A.Kept i) :
    (t.find? (·.isCodeChar x) (A.shift i + 1) t.size).map (fun c => (⟨A.shift i, c + 1⟩ : Span)) =
        ((s.find? (·.isCodeChar x) (i + 1) s.size).map fun c => (⟨i, c + 1⟩ : Span)).map
          A.shiftSpan ∧
      ∀ close ∈ s.find? (·.isCodeChar x) (i + 1) s.size, A.MarkSpan ⟨i, close + 1⟩ := by
  have huniform := Cell.uniform_not_isCodeChar hch
  have hfind := A.find?_shift huniform hk.next A.mark_size
  rw [A.shift_size, hk.shift_next] at hfind
  rw [hfind]
  cases hf : s.find? (·.isCodeChar x) (i + 1) s.size with
  | none => simp
  | some close =>
    have hclose := A.mark_of_find? huniform hk.next A.mark_size hf
    have hkc := A.kept_of_codeAt hch' hclose (Source.holds_of_find? hf)
    simp only [Option.map_some, shiftSpan, hkc.shift_next, Option.mem_some_iff, forall_eq',
      true_and]
    exact ⟨hi, hkc.next⟩

theorem pragmaAt?_shift (hi : A.mark i) :
    t.pragmaAt? (A.shift i) = (s.pragmaAt? i).map A.shiftSpan ∧
      ∀ pragma ∈ s.pragmaAt? i, A.MarkSpan pragma := by
  simp only [Source.pragmaAt?]
  rw [A.codeAt_shift (by decide) hi]
  cases h : s.codeAt i '<' with
  | false => simp
  | true =>
    have hk := A.kept_of_codeAt (by decide) hi h
    obtain ⟨hfound, hmark⟩ := A.enclosed_shift (x := '>') (by decide) (by decide) hi hk
    have hident : t.byteIs Byte.isIdentStart (A.shift i + 1) = s.byteIs Byte.isIdentStart (i + 1) := by
      rw [← hk.shift_next]
      refine A.holds_shift (.inr fun c hc => ?_) hk.next
      simp only [Cell.isLetter, Bool.and_eq_true] at hc
      exact hc.2
    rw [hident, hfound]
    split
    · refine ⟨rfl, fun pragma hp => ?_⟩
      obtain ⟨close, hclose, rfl⟩ := Option.map_eq_some_iff.1 hp
      exact hmark close hclose
    · simp

theorem temporariesAt?_shift (hi : A.mark i) :
    t.temporariesAt? (A.shift i) = (s.temporariesAt? i).map A.shiftSpan ∧
      ∀ block ∈ s.temporariesAt? i, A.MarkSpan block := by
  simp only [Source.temporariesAt?]
  rw [A.codeAt_shift (by decide) hi]
  cases h : s.codeAt i '|' with
  | false => simp
  | true =>
    have hk := A.kept_of_codeAt (by decide) hi h
    obtain ⟨hfound, hmark⟩ := A.enclosed_shift (x := '|') (by decide) (by decide) hi hk
    rw [if_pos rfl, if_pos rfl, hfound]
    refine ⟨rfl, fun block hb => ?_⟩
    obtain ⟨close, hclose, rfl⟩ := Option.map_eq_some_iff.1 hb
    exact hmark close hclose

theorem pragmasFrom_shift (hi : A.mark i) :
    t.pragmasFrom (A.shift i) =
        ((s.pragmasFrom i).1.map A.shiftSpan, A.shift (s.pragmasFrom i).2) ∧
      (∀ pragma ∈ (s.pragmasFrom i).1, A.MarkSpan pragma) ∧ A.mark (s.pragmasFrom i).2 := by
  induction hd : s.size - i using Nat.strongRecOn generalizing i with
  | ind d ih =>
    obtain ⟨htrivia, htrivia'⟩ := A.skipTrivia_shift hi
    obtain ⟨hpragma, hmark⟩ := A.pragmaAt?_shift htrivia
    rw [← htrivia'] at hpragma
    cases hp : s.pragmaAt? (s.skipTrivia i) with
    | none =>
      rw [hp] at hpragma
      rw [Source.pragmasFrom_of_none hp, Source.pragmasFrom_of_none hpragma, htrivia']
      simpa using htrivia
    | some pragma =>
      rw [hp] at hpragma
      have hspan := hmark pragma hp
      have hle := s.le_skipTrivia i
      have hbounds := s.pragmaAt?_bounds hp
      obtain ⟨hrest, hmarks, hstop⟩ := ih (s.size - pragma.stop) (by omega) hspan.2 rfl
      rw [Source.pragmasFrom_of_some hp, Source.pragmasFrom_of_some hpragma]
      simp only [shiftSpan, hrest]
      exact ⟨rfl, List.forall_mem_cons.2 ⟨hspan, hmarks⟩, hstop⟩

/-- The end of the last of some spans, or the offset `i` if there are none. -/
theorem lastStop_shift {spans : List Span} (h : ∀ sp ∈ spans, A.MarkSpan sp) (hi : A.mark i) :
    A.mark ((spans.getLast?.map (·.stop)).getD i) ∧
      (((spans.map A.shiftSpan).getLast?.map (·.stop)).getD (A.shift i)) =
        A.shift ((spans.getLast?.map (·.stop)).getD i) := by
  rw [List.getLast?_map]
  cases hlast : spans.getLast? with
  | none => exact ⟨hi, rfl⟩
  | some sp => exact ⟨(h sp (List.mem_of_getLast? hlast)).2, rfl⟩

/-- Statements begin at corresponding places. -/
theorem preamble_stop_shift :
    A.mark (s.preamble s.bodyStart).stop ∧
      (t.preamble t.bodyStart).stop = A.shift (s.preamble s.bodyStart).stop := by
  obtain ⟨hleading, hmarks, hnext⟩ := A.pragmasFrom_shift A.mark_bodyStart
  obtain ⟨htemps, htempsMark⟩ := A.temporariesAt?_shift hnext
  simp only [Source.preamble]
  rw [← A.shift_bodyStart, hleading]
  simp only [htemps]
  cases hblock : s.temporariesAt? (s.pragmasFrom s.bodyStart).2 with
  | none => exact A.lastStop_shift hmarks A.mark_bodyStart
  | some block =>
    have hspan := htempsMark block hblock
    obtain ⟨htrailing, hmarks', -⟩ := A.pragmasFrom_shift hspan.2
    simp only [Option.map_some, shiftSpan, htrailing]
    exact A.lastStop_shift hmarks' hspan.2

/-! ## The region -/

theorem statementRegion_shift :
    A.MarkSpan s.statementRegion ∧ t.statementRegion = A.shiftSpan s.statementRegion := by
  obtain ⟨hmark, hstop⟩ := A.preamble_stop_shift
  refine ⟨⟨hmark, A.mark_size⟩, ?_⟩
  simp only [Source.statementRegion, shiftSpan, hstop, A.shift_size]

theorem sendRegion_excluded_shift :
    t.sendRegion.excluded = s.sendRegion.excluded.map A.shiftSpan ∧
      ∀ sp ∈ s.sendRegion.excluded, A.MarkSpan sp := by
  obtain ⟨hmark, hregion⟩ := A.statementRegion_shift
  obtain ⟨harrays, harraysMark⟩ := A.literalArrays_shift hmark
  obtain ⟨hblocks, hblocksMark⟩ := A.blockTemporaries_shift hmark
  simp only [Source.sendRegion, hregion, harrays, hblocks, List.map_append, true_and]
  exact List.forall_mem_append.2 ⟨harraysMark, hblocksMark⟩

theorem overlaps_shift {u : Span} (hsp : A.MarkSpan sp) (hu : A.MarkSpan u) :
    (A.shiftSpan u).overlaps (A.shiftSpan sp) = u.overlaps sp := by
  rw [Bool.eq_iff_iff, Span.overlaps_iff, Span.overlaps_iff]
  simp only [shiftSpan, A.shift_lt_iff hu.1 hsp.2, A.shift_lt_iff hsp.1 hu.2]

theorem contains_shift {u : Span} (hsp : A.MarkSpan sp) (hu : A.MarkSpan u) :
    (A.shiftSpan u).contains (A.shiftSpan sp) = u.contains sp := by
  rw [Bool.eq_iff_iff, Span.contains_iff, Span.contains_iff]
  simp only [shiftSpan, A.shift_le_iff hu.1 hsp.1, A.shift_le_iff hsp.2 hu.2]

/-- Sends are admitted at corresponding places. -/
theorem admits_shift (hsp : A.MarkSpan sp) :
    t.sendRegion.admits (A.shiftSpan sp) = s.sendRegion.admits sp := by
  obtain ⟨hmark, hregion⟩ := A.statementRegion_shift
  obtain ⟨hexcluded, hmarks⟩ := A.sendRegion_excluded_shift
  have hspan : t.sendRegion.span = A.shiftSpan s.sendRegion.span := hregion
  have hcontains := A.contains_shift (u := s.sendRegion.span) hsp hmark
  have hany : (s.sendRegion.excluded.map A.shiftSpan).any (·.overlaps (A.shiftSpan sp)) =
      s.sendRegion.excluded.any (·.overlaps sp) := by
    rw [List.any_map, Bool.eq_iff_iff, List.any_eq_true, List.any_eq_true]
    refine exists_congr fun u => and_congr_right fun hu => ?_
    rw [Function.comp_apply, A.overlaps_shift hsp (hmarks u hu)]
  rw [SendRegion.admits, SendRegion.admits, hspan, hexcluded, hcontains, hany]

end Alignment

end MethodBrowser
