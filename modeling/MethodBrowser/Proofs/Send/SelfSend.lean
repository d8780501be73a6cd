import MethodBrowser.Proofs.StatementTexts

/-!
# A message to oneself

The word `self` and a unary selector are a statement of their own. By itself this text is a sentence
that leaves nothing open (`isSentence_selfSend`, `IsWords.isClosed`), and it sends just the one message
(`gist_selfSend`).
-/

namespace MethodBrowser

/-- The statement that sends `name` to `self`. -/
def selfSend (name : List Char) : List Char := ['s', 'e', 'l', 'f', ' '] ++ name

/-! ## Words -/

/-- Nothing but words and spaces between them. -/
def IsWords (cs : List Char) : Prop := ∀ c ∈ cs, isIdentRest c = true ∨ c = ' '

namespace IsWords

variable {cs : List Char} {k : Nat} (h : IsWords cs)
include h

theorem isPlain : ∀ c ∈ cs, IsPlain c := fun c hc => by
  rcases h c hc with hident | rfl
  · exact isPlain_of_isIdentRest hident
  · exact ⟨by unfold IsAscii; decide, by decide, by decide, by decide⟩

theorem utf8Len_eq : String.utf8Len cs = cs.length := utf8Len_of_ascii fun c hc => (h.isPlain c hc).1

theorem cell (hk : k < cs.length) : (Source.ofChars cs).cells[k]? = some ⟨cs[k].toUInt8, .code⟩ := by
  rw [Source.getElem?_ofChars, classify_of_plain h.isPlain, List.getElem?_map,
    List.getElem?_eq_getElem hk, Option.map_some]

theorem isWordChar (hk : k < cs.length) (hident : isIdentRest cs[k] = true) :
    (Source.ofChars cs).holds Cell.isWordChar k = true := by
  rw [Source.holds, h.cell hk, Option.any_some, Cell.isWordChar, Byte.isIdent,
    (h.isPlain _ (List.getElem_mem hk)).1.ofUInt8, hident]
  rfl

theorem isGap (hk : k < cs.length) (hspace : cs[k] = ' ') :
    (Source.ofChars cs).holds Cell.isGap k = true := by
  rw [Source.holds, h.cell hk, Option.any_some, hspace]
  rfl

/-- Every byte is part of a word or a space. -/
theorem isWordChar_or_isGap (hk : k < (Source.ofChars cs).size) :
    (Source.ofChars cs).holds Cell.isWordChar k = true ∨
      (Source.ofChars cs).holds Cell.isGap k = true := by
  rw [Source.size_ofChars, h.utf8Len_eq] at hk
  rcases h _ (List.getElem_mem hk) with hident | hspace
  · exact .inl (h.isWordChar hk hident)
  · exact .inr (h.isGap hk hspace)

/-- No signs stand between words. -/
theorem not_codeAt {x : Char} (hident : Byte.isIdent x.toUInt8 = false)
    (hblank : Byte.isBlank x.toUInt8 = false) : (Source.ofChars cs).codeAt k x = false := by
  rcases Nat.lt_or_ge k (Source.ofChars cs).size with hlt | hge
  · rcases h.isWordChar_or_isGap hlt with hword | hgap
    · exact Source.codeAt_of_isWordChar hident hword
    · refine Source.holds_eq_of (fun c hc => ?_) hgap
      by_contra hcode
      rw [Bool.not_eq_false, Cell.isCodeChar, Bool.and_eq_true, beq_iff_eq] at hcode
      rw [Cell.isGap, Bool.and_eq_true, hcode.2, hblank] at hc
      simp at hc
  · exact Source.holds_of_size_le hge

theorem nest_eq {n : Nesting} : (Source.ofChars cs).nest n k = n := by
  rcases Nat.lt_or_ge k (Source.ofChars cs).size with hlt | hge
  · rcases h.isWordChar_or_isGap hlt with hword | hgap
    · exact Source.nest_of_isWordChar hword
    · refine Source.nest_of_not_isSignificant (Source.holds_eq_of (fun c hc => ?_) hgap)
      rw [Cell.isGap, Cell.isCode, Bool.and_eq_true, beq_iff_eq] at hc
      rw [Cell.isSignificant, hc.1, hc.2]
      rfl
  · exact Source.nest_of_not_isSignificant (Source.holds_of_size_le hge)

theorem isClosed : IsClosed cs := by
  refine ⟨after_of_plain h.isPlain, ?_⟩
  rw [Source.nestFrom]
  induction Span.offsets ⟨0, String.utf8Len cs⟩ with
  | nil => rfl
  | cons i is ih => rw [List.foldl_cons, h.nest_eq, ih]

/-- Words are a sentence, if they stand at both ends. -/
theorem isSentence (hne : cs ≠ []) (hfirst : (Source.ofChars cs).holds Cell.isWordChar 0 = true)
    (hlast : (Source.ofChars cs).holds Cell.isWordChar (cs.length - 1) = true) : IsSentence cs := by
  have hsize : (Source.ofChars cs).size = cs.length := by rw [Source.size_ofChars, h.utf8Len_eq]
  refine ⟨?_, Source.isSignificant_of_isWordChar hfirst, ?_, fun k _ _ => ?_⟩
  · rw [Source.span, hsize]
    exact List.length_pos_iff.2 hne
  · rw [Source.span, hsize]
    exact Source.isSignificant_of_isWordChar hlast
  · exact Source.endsStatement_of_not_period (h.not_codeAt (by decide) (by decide))

theorem isLetter (hk : k < cs.length) (hstart : isIdentStart cs[k] = true) :
    (Source.ofChars cs).holds Cell.isLetter k = true := by
  rw [Source.holds, h.cell hk, Option.any_some, Cell.isLetter, Byte.isIdentStart,
    (h.isPlain _ (List.getElem_mem hk)).1.ofUInt8, hstart]
  rfl

/-! ### What words alone do not have -/

theorem keywordSends_eq_nil (region : SendRegion) : (Source.ofChars cs).keywordSends region = [] := by
  have hkeyword : ∀ i l, (Source.ofChars cs).keywordAt? i l = none := fun i l => by
    rw [Source.keywordAt?]
    cases (Source.ofChars cs).wordAt? i l with
    | none => rfl
    | some word => simp [Source.isKeywordColon, h.not_codeAt (x := ':') (by decide) (by decide)]
  have hkeywords : (Source.ofChars cs).keywords region.span = [] :=
    List.filterMap_eq_nil_iff.2 fun i _ => hkeyword i _
  rw [Source.keywordSends, Source.keywordRuns, hkeywords]
  rfl

theorem cascadeSendsAt_eq_nil (l : Nat) (n : Nesting) (is : List Nat) :
    (Source.ofChars cs).cascadeSendsAt l n is = [] := by
  induction is generalizing n with
  | nil => rfl
  | cons i is ih => simp [Source.cascadeSendsAt, h.not_codeAt (x := ';') (by decide) (by decide), ih]

theorem excluded_eq_nil (i : Nat) : ((Source.ofChars cs).regionFrom i).excluded = [] := by
  have harrays : ∀ i l, (Source.ofChars cs).literalArraysFrom i l = [] := fun i l => by
    induction hd : l - i generalizing i with
    | zero => exact Source.literalArraysFrom_of_le (by omega)
    | succ d ih =>
      have hopens : (Source.ofChars cs).opensArray i = false := by
        rw [Source.opensArray, h.not_codeAt (by decide) (by decide)]
        rfl
      rw [Source.literalArraysFrom_of_not_opens hopens, ih (i + 1) (by omega)]
  have htemps : ∀ span, (Source.ofChars cs).blockTemporaries span = [] := fun span =>
    List.filterMap_eq_nil_iff.2 fun i _ => by
      rw [Source.blockTemporariesAt?, h.not_codeAt (by decide) (by decide)]
      rfl
  rw [Source.regionFrom, Source.literalArrays, harrays, htemps]
  rfl

theorem statementKind_eq (sp : Span) : (Source.ofChars cs).statementKind sp = .expression := by
  have hassign : ∀ i, (Source.ofChars cs).isAssignment i = false := fun i => by
    rw [Source.isAssignment, h.not_codeAt (by decide) (by decide)]
    rfl
  simp [Source.statementKind, h.not_codeAt (x := '^') (by decide) (by decide), hassign]

end IsWords

theorem Source.IsWord.wordAt?_eq_some {src : Source} {i k l : Nat} (h : src.IsWord i k)
    (hl : i + k ≤ l) : src.wordAt? i l = some ⟨i, i + k⟩ := by
  obtain ⟨word, hword⟩ := Option.ne_none_iff_exists'.1 (h.wordAt?_ne_none hl)
  rw [hword, h.eq_of_wordAt? hl hword]

/-- Nothing is sent where the text ends. -/
theorem Source.sendAfter?_limit (src : Source) (r : Receiver) (l : Nat) :
    src.sendAfter? r l l = none := by
  have hskip : src.skipGap l l = l := runEnd_of_le (Nat.le_refl _)
  have hword : src.wordAt? l l = none := by simp [wordAt?]
  have hbinary : src.binaryAt? l l = none := by simp [binaryAt?, runEnd_of_le (Nat.le_refl _)]
  simp only [sendAfter?, hskip, hword, hbinary, Option.map_none]

/-! ## The two words -/

theorem length_selfSend (name : List Char) : (selfSend name).length = 5 + name.length := by
  rw [selfSend, List.length_append]
  rfl

theorem getElem_selfSend {name : List Char} {k : Nat} (hk : 5 + k < (selfSend name).length)
    (hk' : k < name.length) : (selfSend name)[5 + k] = name[k] := by
  simp only [selfSend]
  rw [List.getElem_append_right (by simp)]
  simp

theorem slice_self (name : List Char) : (Source.ofChars (selfSend name)).slice ⟨0, 4⟩ = "self" :=
  Source.slice_of_cut (l := []) (w := ['s', 'e', 'l', 'f']) (r := ' ' :: name) (by
    rw [Source.ofChars, Source.ofText, String.toList_ofList]
    rfl)

section SelfSend

variable {name : List Char} (h : isIdentifier name = true)
include h

theorem isWords_selfSend : IsWords (selfSend name) := by
  refine List.forall_mem_append.2 ⟨fun c hc => ?_, fun c hc => .inl ?_⟩
  · simp only [List.mem_cons, List.not_mem_nil, or_false] at hc
    rcases hc with rfl | rfl | rfl | rfl | rfl <;> decide
  · exact isIdentRest_of_isIdentifier h c hc

theorem length_pos_of_isIdentifier : 0 < name.length := by
  cases name with
  | nil => simp [isIdentifier] at h
  | cons c cs => simp

theorem size_selfSend : (Source.ofChars (selfSend name)).size = 5 + name.length := by
  rw [Source.size_ofChars, (isWords_selfSend h).utf8Len_eq, length_selfSend name]

theorem isGap_selfSend : (Source.ofChars (selfSend name)).holds Cell.isGap 4 = true :=
  (isWords_selfSend h).isGap (by rw [length_selfSend name]; omega) rfl

theorem isIdent_space : (Source.ofChars (selfSend name)).byteIs Byte.isIdent 4 = false :=
  Source.holds_eq_of (fun c hc => by
    rw [Cell.isGap, Bool.and_eq_true] at hc
    exact Cell.isIdent_of_isBlank hc.2) (isGap_selfSend h)

theorem isWord_self : (Source.ofChars (selfSend name)).IsWord 0 4 := by
  have hwords := isWords_selfSend h
  have hlen := length_selfSend name
  refine ⟨by omega, hwords.isLetter (by omega) rfl, fun k hk => ?_, rfl, ?_⟩
  · refine hwords.isWordChar (k := 0 + k) (by omega) ?_
    match k, hk with
    | 0, _ => rfl
    | 1, _ => rfl
    | 2, _ => rfl
    | 3, _ => rfl
  · rw [Source.isWordEnd, isIdent_space h]
    rfl

theorem isWord_name : (Source.ofChars (selfSend name)).IsWord 5 name.length := by
  have hwords := isWords_selfSend h
  have hlen := length_selfSend name
  have hpos := length_pos_of_isIdentifier h
  refine ⟨hpos, ?_, fun k hk => ?_, ?_, ?_⟩
  · refine hwords.isLetter (k := 5) (by omega) ?_
    have hget := getElem_selfSend (k := 0) (by omega) hpos
    rw [hget]
    exact isIdentStart_of_isIdentifier h hpos
  · refine hwords.isWordChar (by omega) ?_
    rw [getElem_selfSend (by omega) hk]
    exact isIdentRest_of_isIdentifier h _ (List.getElem_mem hk)
  · rw [Source.isWordStart, isIdent_space h]
    rfl
  · have hend : (Source.ofChars (selfSend name)).byteIs Byte.isIdent (5 + name.length) = false :=
      Source.holds_of_size_le (by rw [size_selfSend h])
    rw [Source.isWordEnd, hend]
    rfl

theorem isSentence_selfSend : IsSentence (selfSend name) := by
  have hwords := isWords_selfSend h
  have hpos := length_pos_of_isIdentifier h
  refine hwords.isSentence (by simp [selfSend]) ((isWord_self h).chars 0 (by omega)) ?_
  rw [length_selfSend name, Nat.add_sub_assoc hpos]
  exact (isWord_name h).chars _ (by omega)

theorem not_isDigit_selfSend : (Source.ofChars (selfSend name)).byteIs Byte.isDigit 0 = false := by
  refine Source.holds_eq_of (fun c hc => ?_) (isWord_self h).letter
  rw [Cell.isLetter, Bool.and_eq_true] at hc
  exact Cell.isDigit_of_isIdentStart hc.2

/-! ## The message -/

theorem wordAt?_self : (Source.ofChars (selfSend name)).wordAt? 0 (5 + name.length) = some ⟨0, 4⟩ :=
  (isWord_self h).wordAt?_eq_some (by omega)

theorem wordAt?_name :
    (Source.ofChars (selfSend name)).wordAt? 5 (5 + name.length) = some ⟨5, 5 + name.length⟩ :=
  (isWord_name h).wordAt?_eq_some (Nat.le_refl _)

theorem slice_name :
    (Source.ofChars (selfSend name)).slice ⟨5, 5 + name.length⟩ = String.ofList name := by
  have hslice := Source.slice_of_cut
    (show (Source.ofChars (selfSend name)).text.toList = ['s', 'e', 'l', 'f', ' '] ++ name ++ [] by
      rw [Source.ofChars, Source.ofText, String.toList_ofList, List.append_nil]
      rfl)
  rwa [utf8Len_of_isIdentifier h] at hslice

theorem receiverAt?_self :
    (Source.ofChars (selfSend name)).receiverAt? 0 (5 + name.length) = some (.self, 4) := by
  simp only [Source.receiverAt?, wordAt?_self h, slice_self name,
    (isWords_selfSend h).not_codeAt (x := ':') (by decide) (by decide)]
  rfl

theorem receiverAt?_space :
    (Source.ofChars (selfSend name)).receiverAt? 4 (5 + name.length) = none := by
  have hwords := isWords_selfSend h
  have hletter : (Source.ofChars (selfSend name)).holds Cell.isLetter 4 = false :=
    Source.holds_eq_of (fun c hc => Cell.isLetter_of_isPause (by rw [Cell.isPause, hc]; rfl))
      (isGap_selfSend h)
  have hdigit : (Source.ofChars (selfSend name)).byteIs Byte.isDigit 4 = false :=
    Source.holds_eq_of (fun c hc => by
      rw [Cell.isGap, Bool.and_eq_true] at hc
      exact Cell.isDigit_of_isIdent (Cell.isIdent_of_isBlank hc.2)) (isGap_selfSend h)
  have hcloser : (Source.ofChars (selfSend name)).isCloser 4 = false := by
    simp only [Source.isCloser, hwords.not_codeAt (x := ')') (by decide) (by decide),
      hwords.not_codeAt (x := ']') (by decide) (by decide),
      hwords.not_codeAt (x := '}') (by decide) (by decide), Bool.or_self]
  simp [Source.receiverAt?, Excerpt.wordAt?_of_not_isLetter hletter, Source.numberAt?, hdigit, hcloser]

theorem sendAfter?_self (r : Receiver) :
    (Source.ofChars (selfSend name)).sendAfter? r 4 (5 + name.length) =
      some ⟨String.ofList name, .unary, r, ⟨5, 5 + name.length⟩, 1⟩ := by
  have hgap : (Source.ofChars (selfSend name)).holds Cell.isGap 5 = false :=
    Source.not_isGap_of_isIdent (Source.holds_of_imp (fun _ => Cell.isIdent_of_isWordChar)
      ((isWord_name h).chars 0 (isWord_name h).pos)) |>.1
  have hskip : (Source.ofChars (selfSend name)).skipGap 4 (5 + name.length) = 5 := by
    rw [Source.skipGap, Source.runEnd_of_holds (by omega) (isGap_selfSend h),
      Source.runEnd_of_not_holds hgap]
  simp only [Source.sendAfter?, hskip, wordAt?_name h, slice_name h,
    (isWords_selfSend h).not_codeAt (x := ':') (by decide) (by decide)]
  rfl

theorem receiverSendsFrom_selfSend :
    (Source.ofChars (selfSend name)).receiverSendsFrom 0 (5 + name.length) =
      [⟨String.ofList name, .unary, .self, ⟨5, 5 + name.length⟩, 1⟩] := by
  have hname : ∃ r, (Source.ofChars (selfSend name)).receiverAt? 5 (5 + name.length) =
      some (r, 5 + name.length) := by
    refine ⟨.ofWord (String.ofList name), ?_⟩
    simp only [Source.receiverAt?, wordAt?_name h, slice_name h,
      (isWords_selfSend h).not_codeAt (x := ':') (by decide) (by decide)]
    rfl
  obtain ⟨r, hname⟩ := hname
  have hpos := length_pos_of_isIdentifier h
  rw [Source.receiverSendsFrom_of_some (by omega) (receiverAt?_self h), sendAfter?_self h,
    Source.receiverSendsFrom_of_none (receiverAt?_space h),
    Source.receiverSendsFrom_of_some (by omega) hname, Source.sendAfter?_limit,
    Source.receiverSendsFrom_of_le (Nat.le_refl _)]
  rfl

/-- The statement sends its message to `self`, and nothing else. -/
theorem gist_selfSend : Gist.ofChars (selfSend name) =
    ⟨String.ofList (selfSend name), .expression, [⟨String.ofList name, .unary, .self, 1⟩]⟩ := by
  have hwords := isWords_selfSend h
  have hregion : ((Source.ofChars (selfSend name)).regionFrom 0).span = ⟨0, 5 + name.length⟩ := by
    rw [Source.regionFrom, size_selfSend h]
  have hsends : (Source.ofChars (selfSend name)).sendsIn
      ((Source.ofChars (selfSend name)).regionFrom 0) =
        [⟨String.ofList name, .unary, .self, ⟨5, 5 + name.length⟩, 1⟩] := by
    rw [Source.sendsIn, hwords.keywordSends_eq_nil, Source.simpleSends, hregion,
      receiverSendsFrom_selfSend h, hwords.cascadeSendsAt_eq_nil]
    simp [SendRegion.admits, hregion, hwords.excluded_eq_nil, Span.contains]
  simp only [Gist.ofChars, hsends, hwords.statementKind_eq]
  rfl

end SelfSend

end MethodBrowser
