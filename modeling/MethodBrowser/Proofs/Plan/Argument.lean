import MethodBrowser.Proofs.Plan.Forwarding
import MethodBrowser.Proofs.Source.Balance

/-!
# What stands in the place of an argument

A forwarder passes an expression for a new argument. The expression is free text, which is put into
parentheses unless it is one name or literal (`isAtom`). Either way it stands at the end of the text, and
none of its keywords continues the message before it (`Source.Argument`).

**In parentheses** the expression is inside of a group up to its end, because all groups that it closes
are its own. So none of its periods ends the statement (`Source.Cut.parenthesized`).

**Without parentheses** all its cells are parts of a literal, or code that opens and closes nothing
(`IsAtomic`). A symbol has colons, but each part of it stands behind its sign or another colon. Periods are
in numbers only: points are let through there wherever they stand, and a point that is not between two
digits ends the statement (`Source.Bare.endsStatement`).
-/

namespace MethodBrowser

/-- The marks that open and close groups. -/
def groupMarks : List Char := ['(', '[', '\x7b', ')', ']', '\x7d']

theorem Nesting.step?_of_ne {b : UInt8} (h : Char.ofUInt8 b ∉ groupMarks) (n : Nesting) :
    n.step? b = some n := by
  unfold step?
  split <;> simp_all [groupMarks]

/-! ## Trimming -/

namespace Text

theorem ne_of_isSpace {c x : Char} (h : isSpace c = true) (hx : isSpace x = false) : c ≠ x := by
  rintro rfl
  simp [hx] at h

theorem after_of_isSpace {m : Mode} (hm : m ≠ .character) {cs : List Char}
    (h : ∀ c ∈ cs, isSpace c = true) : m.after cs = m := by
  induction cs with
  | nil => rfl
  | cons c cs ih =>
    rw [List.forall_mem_cons] at h
    have hquote : c ≠ '\'' := ne_of_isSpace h.1 (by decide)
    have hdouble : c ≠ '"' := ne_of_isSpace h.1 (by decide)
    have hdollar : c ≠ '$' := ne_of_isSpace h.1 (by decide)
    have hnext : m.next c = m := by
      cases m with
      | code => unfold Mode.next; split <;> simp_all
      | string => exact next_string hquote
      | comment => exact next_comment hdouble
      | character => exact absurd rfl hm
    rw [Mode.after, hnext, ih h.2]

/-- White space opens and closes no groups. -/
theorem nest_of_isSpace {src : Source} {cs rest : List Char} (h : ∀ c ∈ cs, isSpace c = true)
    (hcut : src.Cut [] (cs ++ rest)) {k : Nat} (hk : k < String.utf8Len cs) (n : Nesting) :
    src.nest n k = n := by
  have hwindow := hcut.window hk
  rw [Source.getElem?_ofChars, String.utf8Len_nil, Nat.zero_add] at hwindow
  rw [Source.nest, Source.codeByte?]
  split
  · next b hcode =>
    split at hcode
    · next b' hcell =>
      obtain rfl := Option.some.inj hcode
      rw [Nesting.step, Nesting.step?_of_ne fun hmem => ?_]
      · rfl
      · have hmark : ∀ x ∈ groupMarks, x.toNat < 128 ∧ isSpace x = false := forall_of_all (by decide)
        have hascii := (hmark _ hmem).1
        rw [toNat_ofUInt8] at hascii
        obtain ⟨l, c, r, rfl, -, hc, heq⟩ := classify_cut (hwindow.symm.trans hcell) hascii
        rw [(Cell.mk.inj heq).1, hc.ofUInt8] at hmem
        have hother := (hmark c hmem).2
        rw [h c (by simp)] at hother
        simp at hother
    · simp at hcode
  · rfl

/-- Trimming takes white space away at both ends. -/
theorem exists_trim (text : String) : ∃ before after, text.toList = before ++ ((trim text).toList ++ after) ∧
    (∀ c ∈ before, isSpace c = true) ∧ ∀ c ∈ after, isSpace c = true := by
  refine ⟨text.toList.takeWhile isSpace,
    ((text.toList.dropWhile isSpace).reverse.takeWhile isSpace).reverse, ?_,
    fun c hc => Header.mem_takeWhile hc, fun c hc => Header.mem_takeWhile (List.mem_reverse.1 hc)⟩
  rw [trim, String.toList_ofList, ← List.reverse_append, List.takeWhile_append_dropWhile,
    List.reverse_reverse, List.takeWhile_append_dropWhile]

/-- A trimmed text closes only what it opened, and it ends in code or with a `$`. -/
theorem opened_trim {text : String} (h : IsBalanced text.toList) :
    Opened (trim text).toList ∧
      (Mode.code.after (trim text).toList = .code ∨ Mode.code.after (trim text).toList = .character) := by
  obtain ⟨before, after, htext, hbefore, hafter⟩ := exists_trim text
  have hmode := h.mode
  have hopened := h.opened
  rw [htext] at hmode hopened
  have hleft : Mode.code.after before = .code := after_of_isSpace (by decide) hbefore
  constructor
  · intro k hk b hb
    generalize hall : Source.ofChars (before ++ ((trim text).toList ++ after)) = src
    have hcut : src.Cut before ((trim text).toList ++ after) :=
      ⟨by rw [← hall, Source.ofChars, Source.ofText, String.toList_ofList], fun _ => hleft⟩
    have hcut₀ : src.Cut [] (before ++ ((trim text).toList ++ after)) := ⟨hcut.text, fun _ => rfl⟩
    have hskip : src.nestFrom .empty 0 (String.utf8Len before) = .empty :=
      Source.nestFrom_of_steady (Nat.zero_le _) fun i _ hi => nest_of_isSpace hbefore hcut₀ hi
    have hwindow : src.nestFrom .empty (String.utf8Len before) (String.utf8Len before + k) =
        (Source.ofChars (trim text).toList).nestFrom .empty 0 k :=
      Source.nestFrom_window (Nat.zero_le k) fun i _ hi => hcut.window (by omega)
    have hstep := hopened (String.utf8Len before + k)
      (by rw [String.utf8Len_append, String.utf8Len_append]; omega) b
    rw [hall, Source.nestFrom_trans (Nat.zero_le _) (Nat.le_add_right _ k), hskip, hwindow] at hstep
    exact hstep ((Source.codeByte?_congr (hcut.window hk)).trans hb)
  · rw [Mode.after_append, hleft, Mode.after_append] at hmode
    cases hend : Mode.code.after (trim text).toList with
    | code => exact .inl rfl
    | character => exact .inr rfl
    | string =>
      rw [hend, after_of_isSpace (by decide) hafter] at hmode
      exact .inl hmode
    | comment =>
      rw [hend, after_of_isSpace (by decide) hafter] at hmode
      exact .inl hmode

end Text

/-! ## Names and literals -/

/-- Part of a literal, or code that is neither white space nor a bracket. -/
def Cell.isInert (c : Cell) : Bool :=
  c.kind == .string || c.isCode && (!Byte.isBlank c.byte && !groupMarks.contains (Char.ofUInt8 c.byte))

/-- A character that a text does not have is no cell of it. -/
theorem isCodeChar_of_not_mem {t : List Char} {x : Char} (hx : IsAscii x) (h : x ∉ t) :
    ∀ c ∈ classify .code t, c.isCodeChar x = false := by
  intro c hc
  obtain ⟨k, hk⟩ := List.getElem?_of_mem hc
  rw [Cell.isCodeChar, Bool.and_eq_false_iff, beq_eq_false_iff_ne]
  refine .inr fun hbyte => h ?_
  have hascii : c.byte.toNat < 128 := by
    rw [hbyte, ← toNat_ofUInt8, hx.ofUInt8]
    exact hx
  obtain ⟨l, y, r, rfl, -, hy, heq⟩ := classify_cut hk hascii
  rw [heq] at hbyte
  have hsame := congrArg Char.ofUInt8 hbyte
  simp only [hy.ofUInt8, hx.ofUInt8] at hsame
  simp [hsame]

/-- What the characters of names, numbers and symbols are, other than letters and digits. -/
def atomMarks : List Char := ['.', '-', '#', ':']

theorem isPlain_of_atomMarks {c : Char} (h : isIdentRest c = true ∨ c ∈ atomMarks) : IsPlain c :=
  h.elim isPlain_of_isIdentRest (forall_of_all (by decide) c)

theorem isInert_of_atomMarks {t : List Char} (h : ∀ c ∈ t, isIdentRest c = true ∨ c ∈ atomMarks) :
    ∀ c ∈ classify .code t, c.isInert = true := by
  rw [classify_of_plain fun c hc => isPlain_of_atomMarks (h c hc), List.forall_mem_map]
  intro c hc
  rcases h c hc with hident | hmark
  · have hascii := (isPlain_of_isIdentRest hident).1
    have hblank : Byte.isBlank c.toUInt8 = false :=
      Cell.isBlank_eq_false_of_isIdent (by rwa [Byte.isIdent, hascii.ofUInt8])
    have hgroup : c ∉ groupMarks := fun hmem => by
      have hmarks : ∀ x ∈ groupMarks, isIdentRest x = false := forall_of_all (by decide)
      rw [hmarks c hmem] at hident
      simp at hident
    simp [Cell.isInert, Cell.isCode, hascii.ofUInt8, hblank, hgroup]
  · have hmarks : ∀ x ∈ atomMarks, Cell.isInert ⟨x.toUInt8, .code⟩ = true := forall_of_all (by decide)
    exact hmarks c hmark

/-- What the cells of a name or literal are like. -/
structure IsAtomic (t : List Char) : Prop where
  ne_nil : t ≠ []
  inert : ∀ c ∈ classify .code t, c.isInert = true
  period : isNumeral t = true ∨ ∀ c ∈ classify .code t, c.isCodeChar '.' = false
  colon : (∀ c ∈ classify .code t, c.isCodeChar ':' = false) ∨
    ∃ rest, t = '#' :: rest ∧ ∀ c ∈ rest, isIdentRest c = true ∨ c = ':'

theorem chars_of_isNumeral {t : List Char} (h : isNumeral t = true) :
    t ≠ [] ∧ (∀ c ∈ t, isIdentRest c = true ∨ c = '.' ∨ c = '-') ∧ t.getLast? ≠ some '.' := by
  have hdigits : ∀ {cs : List Char}, (cs.all fun c => c.isDigit || c == '.') = true →
      ∀ c ∈ cs, isIdentRest c = true ∨ c = '.' ∨ c = '-' := fun hall c hc => by
    have hdigit := List.all_eq_true.1 hall c hc
    rw [Bool.or_eq_true, beq_iff_eq] at hdigit
    exact hdigit.imp (fun hdigit => by simp [isIdentRest, Char.isAlphanum, hdigit]) .inl
  simp only [isNumeral, Bool.and_eq_true, Bool.not_eq_true', List.isEmpty_eq_false_iff, bne_iff_ne] at h
  split at h
  · next hsign =>
    obtain ⟨rest, rfl⟩ : ∃ rest, t = '-' :: rest := by
      rw [beq_iff_eq, List.head?_eq_some_iff] at hsign
      exact hsign
    obtain ⟨⟨hne, hall⟩, hlast⟩ := h
    rw [List.tail_cons] at hne hall hlast
    refine ⟨List.cons_ne_nil _ _, List.forall_mem_cons.2 ⟨.inr (.inr rfl), hdigits hall⟩, ?_⟩
    rwa [List.getLast?_cons_of_ne_nil hne]
  · exact ⟨h.1.1, hdigits h.1.2, h.2⟩

theorem not_mem_of_isIdentRest {t : List Char} {x : Char} (h : ∀ c ∈ t, isIdentRest c = true)
    (hx : isIdentRest x = false) : x ∉ t := fun hmem => by
  rw [h x hmem] at hx
  simp at hx

/-- Names, numbers, strings, symbols and characters are made of such cells. -/
theorem isAtomic_of_isAtom {text : String} (h : isAtom text = true) : IsAtomic text.toList := by
  simp only [isAtom, Bool.or_eq_true] at h
  rcases h with (hident | hnumeral) | hliteral
  · have hrest := isIdentRest_of_isIdentifier hident
    exact ⟨List.ne_nil_of_length_pos (length_pos_of_isIdentifier hident),
      isInert_of_atomMarks fun c hc => .inl (hrest c hc),
      .inr (isCodeChar_of_not_mem (by decide) (not_mem_of_isIdentRest hrest (by decide))),
      .inl (isCodeChar_of_not_mem (by decide) (not_mem_of_isIdentRest hrest (by decide)))⟩
  · obtain ⟨hne, hchars, -⟩ := chars_of_isNumeral hnumeral
    refine ⟨hne, isInert_of_atomMarks fun c hc => (hchars c hc).imp_right ?_, .inl hnumeral,
      .inl (isCodeChar_of_not_mem (by decide) fun hmem => absurd (hchars _ hmem) (by decide))⟩
    rintro (rfl | rfl) <;> decide
  · split at hliteral
    · next rest heq =>
      -- A string has no cells of code.
      simp only [isStringLiteral, Bool.and_eq_true] at hliteral
      have hall := (Source.ofText text).cells_eq ▸ Array.all_toList.trans hliteral.1.2
      have hstring : ∀ c ∈ classify .code text.toList, c.kind = .string := fun c hc => by
        simpa using List.all_eq_true.1 hall c hc
      have hcode : ∀ c ∈ classify .code text.toList, ∀ x, c.isCodeChar x = false := fun c hc x => by
        rw [Cell.isCodeChar, Cell.isCode, hstring c hc]
        rfl
      exact ⟨by simp [heq], fun c hc => by rw [Cell.isInert, hstring c hc]; rfl,
        .inr fun c hc => hcode c hc _, .inl fun c hc => hcode c hc _⟩
    · next rest heq =>
      simp only [Bool.and_eq_true, List.all_eq_true, Bool.or_eq_true, beq_iff_eq] at hliteral
      rw [heq]
      have hmarks : ∀ c ∈ rest, isIdentRest c = true ∨ c ∈ atomMarks := fun c hc =>
        (hliteral.2 c hc).imp_right (by rintro rfl; decide)
      refine ⟨List.cons_ne_nil _ _, isInert_of_atomMarks (List.forall_mem_cons.2 ⟨.inr (by decide), hmarks⟩),
        .inr ?_, .inr ⟨rest, rfl, hliteral.2⟩⟩
      refine isCodeChar_of_not_mem (by decide) fun hmem => ?_
      rw [List.mem_cons] at hmem
      exact hmem.elim (by decide) fun hmem => absurd (hliteral.2 _ hmem) (by decide)
    · next rest heq =>
      rw [beq_iff_eq, List.length_eq_one_iff] at hliteral
      obtain ⟨x, rfl⟩ := hliteral
      rw [heq]
      -- Whatever the character is, it is no code.
      have hcells : ∀ c ∈ classify .code ['$', x], c = ⟨'$'.toUInt8, .code⟩ ∨ c.kind = .string := by
        intro c hc
        have hdollar : String.utf8EncodeChar '$' = ['$'.toUInt8] := by decide
        simp [classify, Mode.next, Mode.kind, hdollar] at hc
        rcases hc with rfl | ⟨b, -, rfl⟩
        · exact .inl rfl
        · exact .inr rfl
      have hcode : ∀ y, y = '.' ∨ y = ':' → ∀ c ∈ classify .code ['$', x], c.isCodeChar y = false := by
        intro y hy c hc
        rcases hcells c hc with rfl | hstring
        · rcases hy with rfl | rfl <;> decide
        · rw [Cell.isCodeChar, Cell.isCode, hstring]
          rfl
      refine ⟨List.cons_ne_nil _ _, fun c hc => ?_, .inr (hcode _ (.inl rfl)), .inl (hcode _ (.inr rfl))⟩
      rcases hcells c hc with rfl | hstring
      · decide
      · rw [Cell.isInert, hstring]
        rfl
    · simp at hliteral

/-- The last cell of a name or literal is no period. -/
theorem IsAtomic.last {t : List Char} (h : IsAtomic t) :
    ∀ c ∈ (classify .code t).getLast?, c.isCodeChar '.' = false := by
  intro c hc
  rcases h.period with hnumeral | hnone
  · obtain ⟨-, hchars, hlast⟩ := chars_of_isNumeral hnumeral
    have hplain : ∀ x ∈ t, IsPlain x := fun x hx => isPlain_of_atomMarks
      ((hchars x hx).imp_right (by rintro (rfl | rfl) <;> decide))
    rw [classify_of_plain hplain, List.getLast?_map] at hc
    obtain ⟨x, hx, rfl⟩ := Option.map_eq_some_iff.1 hc
    have hx' : x ≠ '.' := fun heq => hlast (heq ▸ hx)
    refine isCodeChar_of_not_mem (t := [x]) (by decide) (by simpa using hx'.symm) _ ?_
    rw [classify_of_plain (by simpa using hplain x (List.mem_of_getLast? hx))]
    exact List.mem_singleton.2 rfl
  · exact hnone c (List.mem_of_getLast? hc)

namespace Source

variable {src : Source} {front t : List Char} {i l : Nat} {n : Nesting} {token : Span}

/-! ## Expressions in parentheses -/

/-- The keywords of a message stand outside of the groups behind its start. -/
theorem isTopLevel_of_mem_levelTail (h : token ∈ src.levelTail n i l) :
    (src.nestFrom n i token.start).isTopLevel = true := by
  have hle := (mem_levelTail h).1
  induction hd : token.start - i generalizing i n with
  | zero =>
    have heq : token.start = i := by omega
    rcases mem_levelTail_cases h with ⟨-, htop⟩ | hrest
    · rw [heq, nestFrom_self, htop]
    · have := (mem_levelTail hrest).1
      omega
  | succ d ih =>
    rcases mem_levelTail_cases h with ⟨hhere, -⟩ | hrest
    · have := (src.keywordAt?_bounds hhere).1
      omega
    · rw [nestFrom_cons (by omega)]
      exact ih hrest (mem_levelTail hrest).1 (by omega)

/-- What stands from `i` up to the end of the text continues no message. -/
structure Argument (src : Source) (i : Nat) : Prop where
  lt : i < src.size
  quiet : src.levelTail .empty i src.size = []
  significant : src.isSignificant (src.size - 1) = true
  last : src.codeAt (src.size - 1) '.' = false

/-- An expression in parentheses at the end of a text ends neither a statement nor a message. -/
theorem Cut.parenthesized (h : src.Cut front ('(' :: (t ++ [')']))) (hopened : Opened t)
    (hmode : Mode.code.after t = .code ∨ Mode.code.after t = .character) :
    src.Argument (String.utf8Len front) ∧
      ∀ k, String.utf8Len front ≤ k → k < src.size →
        src.endsStatement .empty (String.utf8Len front) k = false := by
  have hparen : IsPlain '(' := by decide
  have hsize := h.size
  have hopen : src.codeAt (String.utf8Len front) '(' = true :=
    (Cut.reads (w := ['(']) h (forall_of_all (by decide))).head
  have hinner : src.Cut (front ++ ['(']) (t ++ [')']) := Cut.after (g := ['(']) h fun _ => rfl
  have hlen : String.utf8Len (front ++ ['(']) = String.utf8Len front + 1 := by
    rw [String.utf8Len_append]
    rfl
  have hend : src.size = String.utf8Len front + 1 + String.utf8Len t + 1 := by
    rw [hinner.size, hlen, String.utf8Len_append, ← Nat.add_assoc]
    rfl
  -- Up to its end the expression is inside of the group that the first parenthesis opens.
  have hinside : ∀ k, String.utf8Len front < k → k ≤ String.utf8Len front + 1 + String.utf8Len t →
      (src.nestFrom .empty (String.utf8Len front) k).isTopLevel = false := by
    intro k hk hkl
    obtain ⟨d, rfl⟩ := Nat.exists_eq_add_of_le (Nat.succ_le_of_lt hk)
    have hnest : src.nest .empty (String.utf8Len front) = ⟨1, 0, 0⟩ := by
      rw [nest, codeByte?_of_codeAt hopen]
      rfl
    have hadd := nestFrom_add hinner hopened ⟨1, 0, 0⟩ (k := d) (by omega)
    rw [hlen] at hadd
    rw [nestFrom_cons (by omega), hnest, hadd]
    exact Nesting.isTopLevel_add rfl _
  obtain ⟨kind, hcell, hkind⟩ : ∃ kind, src.cells[src.size - 1]? = some ⟨')'.toUInt8, kind⟩ ∧
      kind ≠ .comment := by
    have hcell := cell_of_cut (l := front ++ ['('] ++ t) (r := []) (c := ')')
      (by rw [hinner.text]; simp) (by decide)
    rw [String.utf8Len_append, hlen, Mode.after_append, hinner.mode (by simp)] at hcell
    refine ⟨_, by rw [hend, Nat.add_sub_cancel]; exact hcell, ?_⟩
    rcases hmode with hcode | hcharacter
    · rw [hcode]
      decide
    · rw [hcharacter]
      decide
  have hlast : src.codeAt (src.size - 1) '.' = false := by
    rw [codeAt, holds, hcell, Option.any_some]
    cases kind <;> decide
  refine ⟨⟨by omega, List.eq_nil_iff_forall_not_mem.2 fun token htoken => ?_, ?_, hlast⟩, fun k hk hkl => ?_⟩
  · obtain ⟨hstart, hkeyword⟩ := mem_levelTail htoken
    have hlt := (codeAt_colon_of_keywordAt? hkeyword).2
    have htop := isTopLevel_of_mem_levelTail htoken
    rcases Nat.eq_or_lt_of_le hstart with heq | hgt
    · rw [← heq, keywordAt?_of_not_isLetter (not_isLetter_of_codeAt (by decide) hopen)] at hkeyword
      simp at hkeyword
    · rw [hinside _ hgt (by omega)] at htop
      simp at htop
  · rw [isSignificant, holds, hcell, Option.any_some]
    cases kind with
    | code => decide
    | string => rfl
    | comment => exact absurd rfl hkind
  · rcases Nat.eq_or_lt_of_le hk with rfl | hgt
    · exact endsStatement_of_not_period (codeAt_ne (by decide) hopen)
    · rcases Nat.eq_or_lt_of_le (Nat.le_sub_one_of_lt hkl) with rfl | hlt
      · exact endsStatement_of_not_period hlast
      · rw [endsStatement, hinside (k + 1) (by omega) (by omega), Bool.false_and]

/-! ## Bare arguments -/

theorem isSignificant_of_isInert (h : src.holds Cell.isInert i = true) : src.isSignificant i = true := by
  refine holds_of_imp (fun c hc => ?_) h
  obtain ⟨b, kind⟩ := c
  cases kind <;> simp_all [Cell.isInert, Cell.isSignificant, Cell.isCode]

theorem nest_of_isInert (h : src.holds Cell.isInert i = true) : src.nest n i = n := by
  obtain ⟨⟨b, kind⟩, hcell, hinert⟩ := Option.any_eq_true _ _ |>.1 h
  cases kind with
  | code =>
    have hmark : Char.ofUInt8 b ∉ groupMarks := by
      simp only [Cell.isInert, Cell.isCode, beq_self_eq_true, Bool.true_and] at hinert
      simp_all
    simp [nest, codeByte?, hcell, Nesting.step, Nesting.step?_of_ne hmark]
  | string => simp [nest, codeByte?, hcell]
  | comment => simp [nest, codeByte?, hcell]

/-- No keyword continues a message where there is no colon. -/
theorem levelTail_eq_nil (h : ∀ k, i ≤ k → src.codeAt k ':' = false) : src.levelTail n i l = [] := by
  refine List.eq_nil_iff_forall_not_mem.2 fun token htoken => ?_
  obtain ⟨hstart, hkeyword⟩ := mem_levelTail htoken
  obtain ⟨hcolon, hlt, -⟩ := codeAt_colon_of_keywordAt? hkeyword
  rw [h _ (by omega)] at hcolon
  simp at hcolon

/-- The parts of a symbol are no keywords, because each stands behind its sign or another colon. -/
theorem levelTail_of_symbol (h : src.Reads i ('#' :: t)) (ht : ∀ c ∈ t, isIdentRest c = true ∨ c = ':')
    (hsize : src.size = i + ('#' :: t).length) : src.levelTail n i src.size = [] := by
  refine List.eq_nil_iff_forall_not_mem.2 fun token htoken => ?_
  obtain ⟨hstart, hkeyword⟩ := mem_levelTail htoken
  obtain ⟨-, hlt, hstop⟩ := codeAt_colon_of_keywordAt? hkeyword
  rcases Nat.eq_or_lt_of_le hstart with heq | hgt
  · rw [← heq, keywordAt?_of_not_isLetter (not_isLetter_of_codeAt (by decide) h.head)] at hkeyword
    simp at hkeyword
  · have hbefore : src.byteIs (fun b => Byte.isIdent b || (b == '#'.toUInt8 || b == ':'.toUInt8))
        (token.start - 1) = true := by
      refine h.holds (List.forall_mem_cons.2 ⟨by decide, fun c hc => ?_⟩) (by omega) (by omega)
      rcases ht c hc with hident | rfl
      · simp [Byte.isIdent, (isPlain_of_isIdentRest hident).1.ofUInt8, hident]
      · decide
    obtain ⟨c, hc, hbyte⟩ := Option.any_eq_true _ _ |>.1 hbefore
    rw [Bool.or_eq_true] at hbyte
    rcases hbyte with hident | hmark
    · obtain ⟨word, hword, -⟩ := keywordAt?_eq_some hkeyword
      have hstart' := (wordAt?_eq_some hword).2.2.1
      simp [isWordStart, byteIs, holds, hc, hident] at hstart'
      omega
    · have hpos : Nat.blt 0 token.start = true := by
        rw [Nat.blt_eq]
        omega
      simp only [keywordAt?, byteIs, holds, hc, Option.any_some, hmark, hpos] at hkeyword
      split at hkeyword <;> simp at hkeyword

/-- A name or literal ends a statement where it has a period. -/
structure Bare (src : Source) (i : Nat) : Prop extends src.Argument i where
  inert : ∀ k, i ≤ k → k < src.size → src.holds Cell.isInert k = true

theorem Bare.endsStatement (h : src.Bare i) {k : Nat} (hik : i ≤ k) (hk : k < src.size) :
    src.endsStatement .empty i k = src.isTerminator k := by
  have hnest : src.nestFrom .empty i (k + 1) = .empty :=
    nestFrom_of_steady (by omega) fun j hij hjk n => nest_of_isInert (h.inert j hij (by omega))
  rw [Source.endsStatement, hnest]
  rfl

/-- A text ends as the part does that stands last in it. -/
theorem Cut.last_cell (h : src.Cut front t) (ht : t ≠ []) :
    String.utf8Len front < src.size ∧
      ∃ c, (classify .code t).getLast? = some c ∧ src.cells[src.size - 1]? = some c := by
  have hlen : 0 < String.utf8Len t := Nat.pos_of_ne_zero fun h0 => ht (String.utf8Len_eq_zero.1 h0)
  have hsize := h.size
  have hcell := h.cell (String.utf8Len t - 1)
  rw [show String.utf8Len front + (String.utf8Len t - 1) = src.size - 1 by omega, ← length_classify .code t,
    ← List.getLast?_eq_getElem?] at hcell
  have hne : classify .code t ≠ [] := fun hnil => by
    rw [← length_classify .code t, hnil] at hlen
    simp at hlen
  rw [List.getLast?_eq_some_getLast hne] at hcell ⊢
  exact ⟨by omega, _, rfl, hcell⟩

theorem Cut.exists_cell (h : src.Cut front t) {k : Nat} (hk : String.utf8Len front ≤ k) (hlt : k < src.size) :
    ∃ c ∈ classify .code t, src.cells[k]? = some c := by
  obtain ⟨d, rfl⟩ := Nat.exists_eq_add_of_le hk
  have hsize := h.size
  have hlen : d < (classify .code t).length := by
    rw [length_classify]
    omega
  rw [h.cell]
  exact ⟨_, List.getElem_mem hlen, List.getElem?_eq_getElem hlen⟩

/-- A character that no cell of the last part of a text has does not stand there. -/
theorem Cut.codeAt_eq_false {x : Char} (h : src.Cut front t)
    (hx : ∀ c ∈ classify .code t, c.isCodeChar x = false) {k : Nat} (hk : String.utf8Len front ≤ k) :
    src.codeAt k x = false := by
  rcases Nat.lt_or_ge k src.size with hlt | hge
  · obtain ⟨c, hc, heq⟩ := h.exists_cell hk hlt
    rw [codeAt, holds, heq, Option.any_some, hx c hc]
  · exact holds_of_size_le hge

/-- A name or literal at the end of a text is bare. -/
theorem Cut.bare {text : String} (h : src.Cut front text.toList) (hatom : isAtom text = true) :
    src.Bare (String.utf8Len front) := by
  have hcells := isAtomic_of_isAtom hatom
  obtain ⟨hlt, c, hc, hcell⟩ := h.last_cell hcells.ne_nil
  have hholds : ∀ k, String.utf8Len front ≤ k → k < src.size → src.holds Cell.isInert k = true := by
    intro k hk hkl
    obtain ⟨c, hc, heq⟩ := h.exists_cell hk hkl
    rw [holds, heq, Option.any_some, hcells.inert c hc]
  refine ⟨⟨hlt, ?_, isSignificant_of_isInert (hholds _ (by omega) (by omega)), ?_⟩, hholds⟩
  · rcases hcells.colon with hnone | ⟨rest, heq, hrest⟩
    · exact levelTail_eq_nil fun k => h.codeAt_eq_false hnone
    · rw [heq] at h
      have hplain : ∀ c ∈ '#' :: rest, IsPlain c := List.forall_mem_cons.2 ⟨by decide, fun c hc =>
        (hrest c hc).elim isPlain_of_isIdentRest fun hcolon => hcolon ▸ by decide⟩
      refine levelTail_of_symbol (Cut.reads (r := []) (by rwa [List.append_nil]) hplain) hrest ?_
      rw [h.size, utf8Len_of_ascii fun c hc => (hplain c hc).1]
  · rw [codeAt, holds, hcell, Option.any_some, hcells.last c hc]

/-! ## Arguments -/

/-- A period in the last part of a text is a point there if it is one in the part alone. -/
theorem Cut.isTerminator_rest (h : src.Cut front t)
    (hdigit : src.byteIs Byte.isDigit (String.utf8Len front - 1) = false) (k : Nat) :
    src.isTerminator (String.utf8Len front + k) = (ofChars t).isTerminator k := by
  have hperiod : src.codeAt (String.utf8Len front + k) '.' = (ofChars t).codeAt k '.' := h.holds_rest _ k
  have hnext : src.byteIs Byte.isDigit (String.utf8Len front + k + 1) =
      (ofChars t).byteIs Byte.isDigit (k + 1) := h.holds_rest _ (k + 1)
  rw [isTerminator, isTerminator, hperiod, hnext]
  rcases Nat.eq_zero_or_pos k with rfl | hpos
  · rw [Nat.add_zero, hdigit, show Nat.blt 0 0 = false from rfl]
    simp
  · rw [h.byteIs_pred_rest _ hpos]
    have hblt : Nat.blt 0 (String.utf8Len front + k) = Nat.blt 0 k := by
      rw [Bool.eq_iff_iff, Nat.blt_eq, Nat.blt_eq]
      omega
    rw [hblt]

end Source

/-- If the expression is a number, its points stand between digits. -/
def PointsBetweenDigits (expression : String) : Prop :=
  isNumeral (Text.trim expression).toList = true →
    ∀ k, (Source.ofText (Text.trim expression)).isTerminator k = false

/-- Passed on, a balanced expression continues no message, and it ends a statement only by a point of a
number. -/
theorem Source.Cut.argument {src : Source} {front : List Char} {expression : String}
    (h : src.Cut front (asArgument expression).toList) (hbalanced : IsBalanced expression.toList)
    (hdigit : src.byteIs Byte.isDigit (String.utf8Len front - 1) = false) :
    src.Argument (String.utf8Len front) ∧
      ((∀ k, String.utf8Len front ≤ k → k < src.size →
        src.endsStatement .empty (String.utf8Len front) k = false) ↔ PointsBetweenDigits expression) := by
  rw [asArgument] at h
  split at h
  · next hatom =>
    have hbare := h.bare hatom
    have hterm := h.isTerminator_rest hdigit
    rw [ofChars, String.ofList_toList] at hterm
    refine ⟨hbare.toArgument, ⟨fun hwhole _ k => ?_, fun hpoints k hk hkl => ?_⟩⟩
    · rw [← hterm]
      rcases Nat.lt_or_ge (String.utf8Len front + k) src.size with hlt | hge
      · rw [← hbare.endsStatement (Nat.le_add_right _ k) hlt]
        exact hwhole _ (Nat.le_add_right _ k) hlt
      · rw [isTerminator, codeAt, holds_of_size_le hge, Bool.false_and]
    · rw [hbare.endsStatement hk hkl]
      rcases (isAtomic_of_isAtom hatom).period with hnumeral | hnone
      · obtain ⟨d, rfl⟩ := Nat.exists_eq_add_of_le hk
        rw [hterm]
        exact hpoints hnumeral d
      · rw [isTerminator, h.codeAt_eq_false hnone hk, Bool.false_and]
  · next hatom =>
    obtain ⟨hopened, hmode⟩ := Text.opened_trim hbalanced
    obtain ⟨hargument, hwhole⟩ := Cut.parenthesized (t := (Text.trim expression).toList) (by simpa using h)
      hopened hmode
    exact ⟨hargument, iff_of_true hwhole fun hnumeral => absurd (by simp [isAtom, hnumeral]) hatom⟩

end MethodBrowser
