import MethodBrowser.Edit
import MethodBrowser.Proofs.Send.Runs
import MethodBrowser.Proofs.Source.LiteralContents
import MethodBrowser.Statement

/-!
# The analysis does not depend on what literals contain

Texts that differ only inside literals and comments have the same sends, statements and temporaries,
and a rename makes the same edits in both (`Source.sameAnalysis_of_alike`). The quotes around a
literal are not inside it, and neither is the character after a dollar sign.

**Looking back.** The receiver of a keyword send is read backwards, without asking for code. Such a
reading may leave the code, but only for the character of a character literal, where the dollar sign
stops it (`Source.isCode_of_runStart_lt`). So it may come upon one byte that is no code, and that byte
stands right before a word.
-/

namespace MethodBrowser

theorem Byte.isIdent_of_isDigit {b : UInt8} (h : Byte.isDigit b = true) : Byte.isIdent b = true := by
  rw [Byte.isDigit] at h
  simp [Byte.isIdent, isIdentRest, Char.isAlphanum, h]

theorem Cell.isAsciiCode_of_isWordChar {c : Cell} (h : c.isWordChar = true) :
    (c.isCode && c.isAscii) = true := by
  rw [isWordChar, Bool.and_eq_true] at h
  rw [h.1, isAscii_of_isIdent h.2]
  rfl

namespace Source

variable {src : Source} {i l k : Nat} {sp : Span}

/-! ## Looking back -/

theorem isCode_or_isLiteral (h : i < src.size) : src.isCode i = true ∨ src.isLiteral i = true := by
  have hcell : src.cells[i]? = some (src.cells[i]) := Array.getElem?_eq_getElem h
  rw [isCode, isLiteral, holds, holds, hcell, Option.any_some, Option.any_some, Bool.not_eq_true']
  cases (src.cells[i]).isCode <;> simp

/-- Identifier characters that end with code, and the byte before them, are code or stand right before
a word. -/
theorem isCode_or_word (hlast : src.isCode (i - 1) = true)
    (hk : src.runStart (fun c => Byte.isIdent c.byte) i l ≤ k + 1) (hki : k < i) :
    src.isCode k = true ∨ k + 1 < i ∧ src.holds Cell.isWordChar (k + 1) = true := by
  induction hd : i - 1 - k generalizing k with
  | zero =>
    obtain rfl : k = i - 1 := by omega
    exact .inl hlast
  | succ d ih =>
    have hident : src.byteIs Byte.isIdent (k + 1) = true := holds_of_runStart_le hk (by omega)
    rcases isCode_or_isLiteral (lt_size_of_holds hident) with hcode | hliteral
    · exact .inr ⟨by omega, holds_and hcode hident⟩
    · -- The next byte is the character of a character literal.
      have hnext := (ih (k := k + 1) (by omega) (by omega) (by omega)).resolve_left fun hcode => by
        simp [isLiteral_of_isCode hcode] at hliteral
      have hcode := isCode_of_isWordChar hnext.2
      exact .inl (isCode_of_codeAt (dollar_before hliteral hident hcode).2)

/-- A dollar sign stands before the first of them, if it is no code. -/
theorem dollar_of_not_isCode (hlast : src.isCode (i - 1) = true)
    (hk : src.runStart (fun c => Byte.isIdent c.byte) i l ≤ k) (hki : k < i)
    (hnot : src.isCode k = false) : 0 < k ∧ src.codeAt (k - 1) '$' = true := by
  have hident : src.byteIs Byte.isIdent k = true := holds_of_runStart_le hk hki
  have hliteral := (isCode_or_isLiteral (lt_size_of_holds hident)).resolve_left (by simp [hnot])
  have hnext := (isCode_or_word hlast (Nat.le_succ_of_le hk) hki).resolve_left (by simp [hnot])
  exact dollar_before hliteral hident (isCode_of_isWordChar hnext.2)

/-- All others are code. -/
theorem isCode_of_runStart_lt (hlast : src.isCode (i - 1) = true)
    (hk : src.runStart (fun c => Byte.isIdent c.byte) i l < k) (hki : k < i) :
    src.isCode k = true := by
  by_contra hnot
  have hdollar := (dollar_of_not_isCode hlast (Nat.le_of_lt hk) hki (by simpa using hnot)).2
  have hident : src.byteIs Byte.isIdent (k - 1) = true :=
    holds_of_runStart_le (i := i) (l := l) (by omega) (by omega)
  have hsign : src.byteIs Byte.isIdent (k - 1) = false :=
    holds_eq_of (fun c hc => by rw [eq_of_beq (Bool.and_eq_true_iff.1 hc).2]; decide) hdollar
  rw [hident] at hsign
  simp at hsign

/-- A run that is read backwards depends on its cells and on the one before it. -/
theorem runStart_congr {s t : Source} {p : Cell → Bool}
    (h : ∀ k, s.runStart p i l ≤ k + 1 → k < i → t.holds p k = s.holds p k) :
    t.runStart p i l = s.runStart p i l := by
  fun_induction runStart s p i l with
  | case1 i hlt hholds ih =>
    have hle := s.runStart_le p (i - 1) l
    rw [runStart_of_holds hlt ((h (i - 1) (by omega) (by omega)).trans hholds)]
    exact ih fun k hk hki => h k hk (by omega)
  | case2 i hlt hholds =>
    have hnot : s.holds p (i - 1) = false := by simpa using hholds
    exact runStart_of_not_holds ((h (i - 1) (by omega) (by omega)).trans hnot)
  | case3 i hle => exact runStart_of_le (by omega)

/-- All but the first character of a word. -/
theorem slice_tail (c : Char) (cs : List Char) {start stop : Nat} (hlt : start < stop)
    (hident : ∀ k, start ≤ k → k < stop → src.byteIs Byte.isIdent k = true)
    (h : src.slice ⟨start, stop⟩ = String.ofList (c :: cs)) :
    src.byteIs (· == c.toUInt8) start = true ∧ stop = start + 1 + cs.length ∧
      src.slice ⟨start + 1, stop⟩ = String.ofList cs := by
  have hrun : ∀ k < stop - start, src.holds Cell.isAscii (start + k) = true := fun k hk =>
    holds_of_imp (fun _ => Cell.isAscii_of_isIdent) (hident (start + k) (by omega) (by omega))
  obtain ⟨w, hslice, hlen, hascii, hbytes⟩ := exists_spelling hrun
  rw [Nat.add_sub_cancel' (Nat.le_of_lt hlt)] at hslice
  obtain rfl : w = c :: cs := by
    have heq := congrArg String.toList (hslice.symm.trans h)
    rwa [String.toList_ofList, String.toList_ofList] at heq
  rw [List.length_cons] at hlen
  have hstop : stop = start + 1 + cs.length := by omega
  refine ⟨?_, hstop, ?_⟩
  · obtain ⟨cell, hcell, hbyte⟩ := Option.map_eq_some_iff.1 (hbytes 0 (by simp))
    rw [Nat.add_zero] at hcell
    rw [byteIs, holds, hcell, Option.any_some, hbyte]
    exact beq_self_eq_true _
  · rw [hstop]
    refine slice_eq_of_bytes (fun x hx => hascii x (List.mem_cons_of_mem _ hx)) fun k hk => ?_
    rw [Nat.add_assoc, Nat.add_comm 1 k]
    exact hbytes (k + 1) (by simpa using hk)

/-- A word that stands for a known receiver starts with an `s`. -/
theorem ofWord_slice {start stop : Nat} (hlt : start < stop)
    (hident : ∀ k, start ≤ k → k < stop → src.byteIs Byte.isIdent k = true) :
    Receiver.ofWord (src.slice ⟨start, stop⟩) = .unknown ∨
      src.byteIs (· == 's'.toUInt8) start = true ∧
        (stop = start + 4 ∧ src.slice ⟨start + 1, stop⟩ = "elf" ∨
          stop = start + 5 ∧ src.slice ⟨start + 1, stop⟩ = "uper") := by
  by_cases hself : src.slice ⟨start, stop⟩ = "self"
  · obtain ⟨hfirst, hstop, hrest⟩ := slice_tail 's' ['e', 'l', 'f'] hlt hident hself
    exact .inr ⟨hfirst, .inl ⟨hstop, hrest⟩⟩
  · by_cases hsuper : src.slice ⟨start, stop⟩ = "super"
    · obtain ⟨hfirst, hstop, hrest⟩ :=
        slice_tail 's' ['u', 'p', 'e', 'r'] hlt hident hsuper
      exact .inr ⟨hfirst, .inr ⟨hstop, hrest⟩⟩
    · exact .inl (by rw [Receiver.ofWord, if_neg hself, if_neg hsuper])

/-! ## Numbers -/

/-- Digits after a plain character end with one. -/
theorem isPlain_digitsEnd (h : src.holds Cell.isPlain i = true) :
    src.holds Cell.isPlain (src.digitsEnd (i + 1) l - 1) = true := by
  have hle : i + 1 ≤ src.digitsEnd (i + 1) l := src.le_runEnd _ (i + 1) l
  have hend : src.digitsEnd (i + 1) l =
      src.runEnd (fun c => c.isCode && Byte.isDigit c.byte) (i + 1) l :=
    runEnd_after (fun _ => Byte.isIdent_of_isDigit) h
  rcases Nat.eq_or_lt_of_le hle with heq | hlt
  · rw [← heq, Nat.add_sub_cancel]
    exact h
  · refine holds_of_imp (fun c hc => ?_) (holds_of_lt_runEnd (i := i + 1) (l := l)
      (k := src.digitsEnd (i + 1) l - 1) (by omega) (by rw [← hend]; omega))
    rw [Bool.and_eq_true] at hc
    exact Cell.isPlain_of_isIdent hc.1 (Byte.isIdent_of_isDigit hc.2)

theorem isPlain_of_isDigit (hcode : src.isCode i = true)
    (h : src.byteIs Byte.isDigit i = true) : src.holds Cell.isPlain i = true := by
  refine holds_of_imp (fun c hc => ?_) (holds_and hcode h)
  rw [Bool.and_eq_true] at hc
  exact Cell.isPlain_of_isIdent hc.1 (Byte.isIdent_of_isDigit hc.2)

/-- A decimal point after a plain character is code. -/
theorem isPlain_point (h : src.holds Cell.isPlain (i - 1) = true) (hpos : 0 < i)
    (hpoint : src.byteIs (· == '.'.toUInt8) i = true) : src.holds Cell.isPlain i = true := by
  have hsame := byteIs_after (q := (· == '.'.toUInt8)) (by decide) h
  rw [Nat.sub_add_cancel hpos, hpoint] at hsame
  exact isPlain_of_codeAt (by decide) hsame.symm

theorem le_fractionEnd (src : Source) (i l : Nat) : i ≤ src.fractionEnd i l := by
  have hle : i + 1 ≤ src.digitsEnd (i + 1) l := src.le_runEnd _ (i + 1) l
  rw [fractionEnd]
  split
  · omega
  · exact Nat.le_refl _

theorem isPlain_fractionEnd (h : src.holds Cell.isPlain (i - 1) = true) (hpos : 0 < i) :
    src.holds Cell.isPlain (src.fractionEnd i l - 1) = true := by
  rw [fractionEnd]
  split
  · next hif =>
    rw [Bool.and_eq_true, Bool.and_eq_true] at hif
    exact isPlain_digitsEnd (isPlain_point h hpos hif.1.2)
  · exact h

theorem isCode_of_numberAt? (h : src.numberAt? i l = some sp) : src.isCode i = true := by
  have hbounds := src.numberAt?_bounds h
  rw [numberAt?_eq] at h
  split at h
  · split at h
    · next hif =>
      obtain rfl := Option.some.inj h
      rw [Bool.and_eq_true, isCodeSpan, Bool.and_eq_true, List.all_eq_true] at hif
      exact hif.2.2 i (Span.mem_offsets.2 ⟨Nat.le_refl _, hbounds.2⟩)
    · simp at h
  · simp at h

end Source

namespace ReadAlike

variable {s t : Source} (h : ReadAlike s t) {i l : Nat} {sp : Span}

include h

theorem digitsEnd (hi : s.holds Cell.isPlain i = true) :
    t.digitsEnd (i + 1) l = s.digitsEnd (i + 1) l :=
  h.runEnd_after (fun _ => Byte.isIdent_of_isDigit) hi

theorem fractionEnd (hi : s.holds Cell.isPlain (i - 1) = true) (hpos : 0 < i) :
    t.fractionEnd i l = s.fractionEnd i l := by
  have hpoint := h.byteIs_after (q := (· == '.'.toUInt8)) (by decide) hi
  rw [Nat.sub_add_cancel hpos] at hpoint
  rw [Source.fractionEnd, Source.fractionEnd, hpoint]
  cases hbyte : s.byteIs (· == '.'.toUInt8) i with
  | false => simp only [Bool.and_false, Bool.false_and, Bool.false_eq_true, if_false]
  | true =>
    have hplain := Source.isPlain_point hi hpos hbyte
    rw [h.byteIs_after (by decide) hplain, h.digitsEnd hplain]

theorem isWordEnd (hi : s.holds Cell.isPlain (i - 1) = true) (hpos : 0 < i) :
    t.isWordEnd i = s.isWordEnd i := by
  have hident := h.byteIs_after (q := Byte.isIdent) (by decide) hi
  rw [Nat.sub_add_cancel hpos] at hident
  rw [Source.isWordEnd, Source.isWordEnd, hident]

theorem numberAt? : t.numberAt? = s.numberAt? := by
  funext i l
  by_cases hcode : s.isCode i = true
  · have hdigit : t.byteIs Byte.isDigit i = s.byteIs Byte.isDigit i :=
      Source.holds_congr (h.code i hcode)
    rw [Source.numberAt?_eq, Source.numberAt?_eq, hdigit]
    cases hi : s.byteIs Byte.isDigit i with
    | false => rfl
    | true =>
      have hchar : s.holds Cell.isWordChar i = true :=
        Source.holds_and hcode (Source.holds_of_imp (fun _ => Byte.isIdent_of_isDigit) hi)
      have hplain := Source.isPlain_of_isDigit hcode hi
      have hwhole := Source.isPlain_digitsEnd (l := l) hplain
      have hle : i + 1 ≤ s.digitsEnd (i + 1) l := s.le_runEnd _ (i + 1) l
      have hle' := s.le_fractionEnd (s.digitsEnd (i + 1) l) l
      have hstop := Source.isPlain_fractionEnd (l := l) hwhole (by omega)
      rw [h.isWordStart hchar, h.digitsEnd hplain, h.fractionEnd hwhole (by omega),
        h.isWordEnd hstop (by omega), h.isCodeSpan]
  · have hnone : ∀ {src : Source}, ¬src.isCode i = true → src.numberAt? i l = none := by
      intro src hnot
      cases hn : src.numberAt? i l with
      | none => rfl
      | some number => exact absurd (Source.isCode_of_numberAt? hn) hnot
    rw [hnone hcode, hnone (by rwa [h.isCode])]

/-! ## The spelling of tokens -/

theorem slice_word (hw : s.wordAt? i l = some sp) : t.slice sp = s.slice sp := by
  have hbounds := s.wordAt?_bounds hw
  refine h.slice (by omega) fun k hstart hstop => ?_
  exact Source.holds_of_imp (fun _ => Cell.isAsciiCode_of_isWordChar)
    (Source.isWordChar_of_wordAt? hw (by omega) hstop)

theorem slice_keyword (hk : s.keywordAt? i l = some sp) : t.slice sp = s.slice sp := by
  have hbounds := s.keywordAt?_bounds hk
  refine h.slice (by omega) fun k hstart hstop => ?_
  rcases Source.keywordAt?_chars hk (by omega) hstop with hchar | hcolon
  · exact Source.holds_of_imp (fun _ => Cell.isAsciiCode_of_isWordChar) hchar
  · refine Source.holds_of_imp (fun c hc => ?_) hcolon
    rw [Cell.isCodeChar, Bool.and_eq_true, beq_iff_eq] at hc
    rw [hc.1, Cell.isAscii, hc.2]
    decide

theorem slice_binary (hb : s.binaryAt? i l = some sp) : t.slice sp = s.slice sp := by
  rw [Source.binaryAt?] at hb
  split at hb
  · next hlt =>
    obtain rfl := Option.some.inj hb
    rw [Bool.and_eq_true, decide_eq_true_eq] at hlt
    refine h.slice (Nat.le_of_lt hlt.1) fun k hstart hstop => ?_
    refine Source.holds_of_imp (fun c hc => ?_) (Source.holds_of_lt_runEnd hstart hstop)
    rw [Bool.and_eq_true] at hc
    rw [hc.1, Cell.isAscii_of_isBinary hc.2]
    rfl
  · simp at hb

/-! ## Unary and binary sends -/

theorem isCloser : t.isCloser = s.isCloser := by
  funext i
  rw [Source.isCloser, Source.isCloser, h.codeAt]

theorem receiverAt? : t.receiverAt? = s.receiverAt? := by
  funext i l
  rw [Source.receiverAt?, Source.receiverAt?, h.wordAt?, h.numberAt?, h.isCloser, h.codeAt]
  cases hw : s.wordAt? i l with
  | none => rfl
  | some word => simp only [h.slice_word hw]

theorem sendAfter? : t.sendAfter? = s.sendAfter? := by
  funext r i l
  rw [Source.sendAfter?, Source.sendAfter?, h.skipGap, h.wordAt?, h.binaryAt?, h.codeAt]
  cases hw : s.wordAt? (s.skipGap i l) l with
  | some word => simp only [h.slice_word hw]
  | none =>
    cases hb : s.binaryAt? (s.skipGap i l) l with
    | none => rfl
    | some token => simp only [Option.map_some, h.slice_binary hb]

theorem receiverSendsFrom : t.receiverSendsFrom = s.receiverSendsFrom := by
  funext i l
  fun_induction Source.receiverSendsFrom s i l with
  | case1 i hlt hnone ih =>
    rw [Source.receiverSendsFrom_of_none (by rwa [h.receiverAt?]), ih]
  | case2 i hlt r stop hsome ih =>
    rw [Source.receiverSendsFrom_of_some hlt (by rwa [h.receiverAt?]), h.sendAfter?, ih]
  | case3 i hle => exact Source.receiverSendsFrom_of_le (by omega)

theorem cascadeSendsAt : t.cascadeSendsAt = s.cascadeSendsAt := by
  funext l n is
  induction is generalizing n with
  | nil => rfl
  | cons i is ih => simp only [Source.cascadeSendsAt, h.nest, h.codeAt, h.sendAfter?, ih]

theorem simpleSends : t.simpleSends = s.simpleSends := by
  funext region
  rw [Source.simpleSends, Source.simpleSends, h.receiverSendsFrom, h.cascadeSendsAt]

/-! ## Keyword sends -/

theorem endsRun : t.endsRun = s.endsRun := by
  funext i
  rw [Source.endsRun, Source.endsRun, h.codeAt, h.isTerminator]

theorem levelTail : t.levelTail = s.levelTail := by
  funext n i l
  fun_induction Source.levelTail s n i l with
  | case1 n i hlt hbyte ih =>
    rw [Source.levelTail, if_pos hlt, h.codeByte?, hbyte]
    exact ih
  | case2 n i hlt b hbyte hend =>
    rw [Source.levelTail, if_pos hlt, h.codeByte?, hbyte]
    simp only [h.endsRun, hend, if_true]
  | case3 n i hlt b hbyte hend hstep =>
    rw [Source.levelTail, if_pos hlt, h.codeByte?, hbyte]
    simp only [h.endsRun, hend, hstep, Bool.false_eq_true, if_false]
  | case4 n i hlt b hbyte hend n' hstep ih =>
    rw [Source.levelTail, if_pos hlt, h.codeByte?, hbyte]
    simp only [h.endsRun, hend, hstep, h.keywordAt?, ih, Bool.false_eq_true, if_false]
  | case5 n i hle => exact Source.levelTail_of_le (by omega)

theorem runTail : t.runTail = s.runTail := by
  funext n i l
  rw [Source.runTail_eq_levelTail, Source.runTail_eq_levelTail, h.levelTail]

/-- Identifier characters that end with code start at the same place. -/
theorem runStart_ident {before : Nat} (hlast : s.isCode (before - 1) = true) :
    t.runStart (fun c => Byte.isIdent c.byte) before l =
      s.runStart (fun c => Byte.isIdent c.byte) before l := by
  refine Source.runStart_congr fun k hk hkb => ?_
  rcases Source.isCode_or_word hlast hk hkb with hcode | ⟨-, hword⟩
  · exact Source.holds_congr (h.code k hcode)
  · exact h.ident (k + 1) hword

/-- What starts right behind something that is the same in both sources starts in both. -/
theorem isWordStart_of_isCode (hi : s.isCode (i - 1) = true) : t.isWordStart i = s.isWordStart i := by
  rw [Source.isWordStart, Source.isWordStart, Source.byteIs, Source.byteIs, Source.holds,
    Source.holds, h.code _ hi]

theorem cell_of_byteIs {b : UInt8} (hs : s.byteIs (· == b) i = true)
    (ht : t.byteIs (· == b) i = true) : t.cells[i]? = s.cells[i]? := by
  rw [Source.byteIs, Source.holds, Option.any_eq_true] at hs ht
  obtain ⟨c, hc, hcb⟩ := hs
  obtain ⟨d, hd, hdb⟩ := ht
  have hkind := h.kinds i
  rw [Source.kind?, Source.kind?, hc, hd, Option.map_some, Option.map_some, Option.some.injEq] at hkind
  rw [hc, hd]
  cases c
  cases d
  simp_all

/-- The word in front of a keyword is the same receiver, and a word in both. -/
theorem ofWord_slice {before start : Nat} (hlast : s.isCode (before - 1) = true)
    (hstart : s.runStart (fun c => Byte.isIdent c.byte) before l = start) (hlt : start < before) :
    t.isWordStart start = s.isWordStart start ∧
      Receiver.ofWord (t.slice ⟨start, before⟩) = Receiver.ofWord (s.slice ⟨start, before⟩) := by
  have hident : ∀ k, start ≤ k → k < before → s.byteIs Byte.isIdent k = true := fun k hk =>
    Source.holds_of_runStart_le (hstart ▸ hk)
  have hident' : ∀ k, start ≤ k → k < before → t.byteIs Byte.isIdent k = true := fun k hk =>
    Source.holds_of_runStart_le (((h.runStart_ident hlast).trans hstart) ▸ hk)
  have hinside : ∀ k, start < k → k < before → s.isCode k = true := fun k hk =>
    Source.isCode_of_runStart_lt hlast (hstart ▸ hk)
  have hslice : t.cells[start]? = s.cells[start]? →
      t.slice ⟨start, before⟩ = s.slice ⟨start, before⟩ := by
    intro hfirst
    have hsame := Source.slice_congr (s := s) (t := t) (i := start) (j := start) (n := before - start)
      (fun k hk => Source.holds_of_imp (fun _ => Cell.isAscii_of_isIdent)
        (hident (start + k) (by omega) (by omega))) fun k hk => ?_
    · rwa [Nat.add_sub_cancel' (Nat.le_of_lt hlt)] at hsame
    · rcases Nat.eq_zero_or_pos k with rfl | hpos
      · exact hfirst
      · exact h.code _ (hinside _ (by omega) (by omega))
  cases hcode : s.isCode start with
  | true =>
    have hchar : s.holds Cell.isWordChar start = true :=
      Source.holds_and hcode (hident start (Nat.le_refl _) hlt)
    exact ⟨h.isWordStart hchar, congrArg _ (hslice (h.code start hcode))⟩
  | false =>
    -- The first character is that of a character literal.
    have hdollar := (Source.dollar_of_not_isCode hlast (Nat.le_of_eq hstart) hlt hcode).2
    refine ⟨h.isWordStart_of_isCode (Source.isCode_of_codeAt hdollar), ?_⟩
    have hrest : t.slice ⟨start + 1, before⟩ = s.slice ⟨start + 1, before⟩ := by
      refine h.slice (Nat.succ_le_of_lt hlt) fun k hk hkb => Source.holds_and (hinside k hk hkb) ?_
      exact Source.holds_of_imp (fun _ => Cell.isAscii_of_isIdent)
        (hident k (Nat.le_of_succ_le hk) hkb)
    have hletter : (before = start + 4 ∧ s.slice ⟨start + 1, before⟩ = "elf" ∨
        before = start + 5 ∧ s.slice ⟨start + 1, before⟩ = "uper") →
        t.byteIs (· == 's'.toUInt8) start = s.byteIs (· == 's'.toUInt8) start := by
      intro hname
      have hword := ((Source.isCode_or_word (l := l) hlast (by omega) hlt).resolve_left
        (by simp [hcode])).2
      refine h.receiver (start + 1) hword ?_
      rcases hname with ⟨rfl, helf⟩ | ⟨rfl, huper⟩
      · exact .inl helf
      · exact .inr huper
    rcases Source.ofWord_slice hlt hident with hs | ⟨hs, hname⟩
    · rcases Source.ofWord_slice hlt hident' with ht | ⟨ht, hname⟩
      · rw [hs, ht]
      · rw [hrest] at hname
        exact congrArg _ (hslice (h.cell_of_byteIs ((hletter hname).symm.trans ht) ht))
    · exact congrArg _ (hslice (h.cell_of_byteIs hs ((hletter hname).trans hs)))

theorem keywordReceiver : t.keywordReceiver = s.keywordReceiver := by
  funext i l
  rw [Source.keywordReceiver, Source.keywordReceiver, h.skipGapBack, h.isCode, h.codeAt]
  generalize s.skipGapBack i l = before
  by_cases hfirst : (before = l || !s.isCode (before - 1)) = true
  · rw [if_pos hfirst, if_pos hfirst]
  · rw [if_neg hfirst, if_neg hfirst]
    have hlast : s.isCode (before - 1) = true := by
      rw [Bool.or_eq_true, not_or] at hfirst
      simpa using hfirst.2
    have hle := s.runStart_le (fun c => Byte.isIdent c.byte) before l
    rw [h.runStart_ident hlast]
    generalize hstart : s.runStart (fun c => Byte.isIdent c.byte) before l = start at hle ⊢
    by_cases hempty : start = before
    · simp only [hempty, decide_true, Bool.true_or, if_true]
    · obtain ⟨hword, hreceiver⟩ := h.ofWord_slice hlast hstart (by omega)
      simp only [hword, hreceiver]

theorem keywordRun {region : SendRegion} {first : Span}
    (hfirst : s.keywordAt? first.start region.span.stop = some first) :
    t.keywordRun region first = s.keywordRun region first := by
  have hspell : ∀ token ∈ (s.keywordRun region first).tokens, t.slice token = s.slice token :=
    fun token htoken => h.slice_keyword (Source.mem_keywordRun_tokens hfirst htoken).2
  rw [Source.keywordRun, Source.keywordRun, h.runTail, h.keywordReceiver]
  exact congrArg (fun selectors => KeywordRun.mk _ _ (String.join selectors) _)
    (List.map_congr_left hspell)

theorem runsOf {region : SendRegion} {taken : List Nat} {tokens : List Span}
    (htokens : ∀ token ∈ tokens, s.keywordAt? token.start region.span.stop = some token) :
    t.runsOf region taken tokens = s.runsOf region taken tokens := by
  induction tokens generalizing taken with
  | nil => rfl
  | cons first others ih =>
    rw [List.forall_mem_cons] at htokens
    simp only [Source.runsOf, h.keywordRun htokens.1, ih htokens.2]

theorem keywordRuns : t.keywordRuns = s.keywordRuns := by
  funext region
  rw [Source.keywordRuns, Source.keywordRuns, h.keywords]
  exact h.runsOf fun token htoken => (Source.keywordAt?_of_mem_keywords htoken).2

theorem keywordSends : t.keywordSends = s.keywordSends := by
  funext region
  rw [Source.keywordSends, Source.keywordSends, h.keywordRuns]

theorem sendRegion : t.sendRegion = s.sendRegion := by
  rw [Source.sendRegion, Source.sendRegion, h.statementRegion, h.literalArrays, h.blockTemporaries]

theorem sends : t.sends = s.sends := by
  rw [Source.sends, Source.sends, h.sendRegion, h.keywordSends, h.simpleSends]

/-! ## Statements and temporaries -/

theorem statementKind : t.statementKind = s.statementKind := by
  funext sp
  rw [Source.statementKind, Source.statementKind, h.codeAt, h.isAssignment]

theorem statementIn? : t.statementIn? = s.statementIn? := by
  funext raw
  have hnot := Cell.guarded_isSignificant.not
  rw [Source.statementIn?, Source.statementIn?, Source.trim?, Source.trim?, h.runEnd hnot,
    h.runStart hnot, h.statementKind]

theorem pieces : t.pieces = s.pieces := by
  funext stop start n is
  induction is generalizing start n with
  | nil => rfl
  | cons i is ih => simp only [Source.pieces, h.nest, h.isTerminator, ih]

theorem statements : t.statements = s.statements := by
  rw [Source.statements, Source.statements, Source.statementsIn, Source.statementsIn,
    h.statementRegion, h.pieces, h.statementIn?]

theorem temporaries : t.temporaries = s.temporaries := by
  rw [Source.temporaries, Source.temporaries, h.preamble, h.bodyStart]
  cases (s.preamble s.bodyStart).temporaries with
  | none => rfl
  | some block =>
    simp only [Source.declaredNames, h.words]
    refine List.map_congr_left fun word hword => ?_
    obtain ⟨k, -, hw⟩ := List.mem_filterMap.1 hword
    exact h.slice_word hw

/-! ## Edits -/

theorem keywordEdits : t.keywordEdits = s.keywordEdits := by
  funext old new
  rw [Source.keywordEdits, Source.keywordEdits, h.keywordRuns, h.sendRegion]

theorem simpleEdits : t.simpleEdits = s.simpleEdits := by
  funext old new
  rw [Source.simpleEdits, Source.simpleEdits, h.sends]

end ReadAlike

namespace Alike

variable {s t : Source} (h : Alike s t)

include h

theorem sends : t.sends = s.sends := h.readAlike.sends

theorem statements : t.statements = s.statements := h.readAlike.statements

theorem temporaries : t.temporaries = s.temporaries := h.readAlike.temporaries

theorem keywordEdits : t.keywordEdits = s.keywordEdits := h.readAlike.keywordEdits

theorem simpleEdits : t.simpleEdits = s.simpleEdits := h.readAlike.simpleEdits

end Alike

/-- The edits that rename the sends of `old`. -/
def Source.renameEdits (src : Source) (old new : String) : List Edit :=
  if Selector.kind? old == some .keyword then src.keywordEdits old new else src.simpleEdits old new

theorem source_renameSends (text old new : String) :
    (renameSends text old new).source =
      Edit.applyAll text ((Source.ofText text).renameEdits old new) := by
  rw [renameSends, Source.renameEdits]
  split
  · rfl
  · rfl

/-! ## The theorem -/

/-- The same is found in both texts, and a rename makes the same edits in both. -/
structure SameAnalysis (a b : String) : Prop where
  sends : (Source.ofText b).sends = (Source.ofText a).sends
  statements : (Source.ofText b).statements = (Source.ofText a).statements
  temporaries : (Source.ofText b).temporaries = (Source.ofText a).temporaries
  edits : ∀ old new, (Source.ofText b).renameEdits old new = (Source.ofText a).renameEdits old new
  /-- The edits are those that a rename carries out. -/
  renamed : ∀ old new,
    (renameSends a old new).source = Edit.applyAll a ((Source.ofText a).renameEdits old new) ∧
      (renameSends b old new).source = Edit.applyAll b ((Source.ofText b).renameEdits old new)

/-- What literals and comments contain does not influence the analysis. -/
theorem sameAnalysis_of_alike (a b : String) (h : Alike (.ofText a) (.ofText b)) :
    SameAnalysis a b := by
  refine ⟨h.sends, h.statements, h.temporaries, fun old new => ?_, fun old new => ?_⟩
  · rw [Source.renameEdits, Source.renameEdits, h.keywordEdits, h.simpleEdits]
  · exact ⟨source_renameSends a old new, source_renameSends b old new⟩

theorem sameAnalysis_of_alike_store :
    "store\n^d at: 'a. b' put: $c \"x foo\"" ≠ "store\n^d at: 'c: d' put: $c \"y bar\"" ∧
      SameAnalysis "store\n^d at: 'a. b' put: $c \"x foo\""
        "store\n^d at: 'c: d' put: $c \"y bar\"" :=
  ⟨by decide, sameAnalysis_of_alike _ _ (by decide +kernel)⟩

end MethodBrowser
