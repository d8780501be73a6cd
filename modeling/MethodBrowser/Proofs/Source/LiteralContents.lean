import MethodBrowser.Proofs.Source.AlignedRegion
import MethodBrowser.Proofs.Source.Text

/-!
# What literals contain

Two sources are *alike* when they differ only inside literals and comments (`Alike`), and *read alike*
when no reader of tokens, of literal arrays or of the preamble can tell them apart (`ReadAlike`). Each
of these readers is shown to be the same function of sources that are read alike; those that are alike
are (`Alike.readAlike`).

**Guarded questions.** A reader that asks for a byte only if it is code cannot see a difference
(`ReadAlike.holds`). Most questions are of this kind.

**Looking ahead.** Some readers look at the byte after a token without asking what it is part of. What
follows a plain character of code is code or a quote (`Source.byteIs_after`), and none of them asks for
quotes.

**Looking back.** Others look at the byte before a word or a decimal point, where the character of a
character literal may stand. What they ask of it is what sources that are read alike have to agree on.
An identifier character that is no code can stand before code only there (`Source.dollar_before`), and
it is never inside a stretch of literals.
-/

namespace MethodBrowser

/-! ## Guarded questions -/

namespace Cell

/-- The predicate asks for the byte only if it is code. -/
def Guarded (p : Cell → Bool) : Prop :=
  ∀ c d : Cell, c.kind = d.kind → (c.isCode = true → c.byte = d.byte) → p c = p d

theorem guarded_code (q : UInt8 → Bool) : Guarded fun c => c.isCode && q c.byte := by
  intro c d hkind hbyte
  have hcode : c.isCode = d.isCode := by rw [isCode, isCode, hkind]
  change (c.isCode && q c.byte) = (d.isCode && q d.byte)
  cases h : c.isCode with
  | false => rw [← hcode, h, Bool.false_and, Bool.false_and]
  | true => rw [← hcode, h, hbyte h]

theorem guarded_isCode : Guarded isCode := by
  intro c d hkind _
  rw [isCode, isCode, hkind]

theorem Guarded.not {p : Cell → Bool} (hp : Guarded p) : Guarded fun c => !p c := by
  intro c d hkind hbyte
  exact congrArg (!·) (hp c d hkind hbyte)

theorem guarded_isSignificant : Guarded isSignificant := by
  intro c d hkind hbyte
  simp only [isSignificant, ← hkind]
  cases hc : c.kind with
  | code => rw [hbyte (by rw [isCode, hc]; rfl)]
  | string => rfl
  | comment => rfl

theorem guarded_trivia : Guarded fun c => !c.isCode || Byte.isBlank c.byte := by
  have heq : (fun c : Cell => !c.isCode || Byte.isBlank c.byte) =
      fun c => !(c.isCode && !Byte.isBlank c.byte) := by
    funext c
    rw [Bool.not_and, Bool.not_not]
  rw [heq]
  exact (guarded_code fun b => !Byte.isBlank b).not

/-- Code that opens nothing. -/
def isPlain (c : Cell) : Bool :=
  c.isCode && (decide (c.byte.toNat < 128) && c.byte != '$'.toUInt8)

theorem guarded_isPlain : Guarded isPlain :=
  guarded_code fun b => decide (b.toNat < 128) && b != '$'.toUInt8

theorem isPlain_of_isCodeChar {x : Char} (hx : IsPlain x) {c : Cell} (h : c.isCodeChar x = true) :
    c.isPlain = true := by
  rw [isCodeChar, Bool.and_eq_true, beq_iff_eq] at h
  have hbyte : Char.ofUInt8 x.toUInt8 = x := hx.1.ofUInt8
  have hne : x.toUInt8 ≠ '$'.toUInt8 := by
    intro heq
    rw [heq] at hbyte
    exact hx.2.2.2 hbyte.symm
  have hlt : x.toUInt8.toNat < 128 := by
    rw [← toNat_ofUInt8, hbyte]
    exact hx.1
  simp [isPlain, h.1, h.2, hne, hlt]

theorem isPlain_of_isIdent {c : Cell} (hcode : c.isCode = true) (h : Byte.isIdent c.byte = true) :
    c.isPlain = true := by
  have hascii := isAscii_of_isIdent h
  have hne : c.byte ≠ '$'.toUInt8 := byte_ne_of_isWordChar
    (by rw [isWordChar, hcode, h]; rfl) (by decide)
  rw [isAscii] at hascii
  simp [isPlain, hcode, hascii, hne]

end Cell

/-! ## At the ends of literals -/

/-- A character literal is read right after a dollar sign. -/
theorem exists_dollar {l : List Char} (h : Mode.code.after l = .character) :
    ∃ l', l = l' ++ ['$'] ∧ Mode.code.after l' = .code := by
  rcases List.eq_nil_or_concat l with rfl | ⟨l', c, rfl⟩
  · simp [Mode.after] at h
  · rw [List.concat_eq_append, Mode.after_append] at h
    have hnext : (Mode.code.after l').next c = .character := h
    unfold Mode.next at hnext
    split at hnext <;> simp_all

namespace Source

variable {src : Source} {i l : Nat} {q : UInt8 → Bool}

/-- The mark of the first byte after a cut. -/
theorem kind?_of_cut {l r : List Char} {c : Char} (h : src.text.toList = l ++ c :: r) :
    src.kind? (String.utf8Len l) = some ((Mode.code.after l).kind c) := by
  have hsize := c.utf8Size_pos
  rw [kind?, getElem?_cells, h, classify_append,
    List.getElem?_append_right (by rw [length_classify]), length_classify, Nat.sub_self, classify,
    List.getElem?_append_left (by rw [List.length_map, String.length_utf8EncodeChar]; exact hsize),
    List.getElem?_map, Option.map_map]
  cases hbytes : String.utf8EncodeChar c with
  | nil => simp [← String.length_utf8EncodeChar, hbytes] at hsize
  | cons b bs => rfl

/-- A byte that is no code. -/
def isLiteral (src : Source) (i : Nat) : Bool := src.holds (fun c => !c.isCode) i

theorem isLiteral_of_isCode (h : src.isCode i = true) : src.isLiteral i = false :=
  holds_eq_of (fun c hc => by rw [hc]; rfl) h

/-- The first byte after a cut, if it is no code. -/
theorem kind_ne_of_isLiteral {l r : List Char} {c : Char} (h : src.text.toList = l ++ c :: r)
    (hlit : src.isLiteral (String.utf8Len l) = true) : (Mode.code.after l).kind c ≠ .code := by
  have hkind := kind?_of_cut h
  rw [kind?] at hkind
  obtain ⟨cell, hcell, heq⟩ := Option.map_eq_some_iff.1 hkind
  rw [isLiteral, holds, hcell, Option.any_some, Cell.isCode] at hlit
  simpa [heq] using hlit

theorem kind_eq_of_isCode {l r : List Char} {c : Char} (h : src.text.toList = l ++ c :: r)
    (hcode : src.isCode (String.utf8Len l) = true) : (Mode.code.after l).kind c = .code := by
  have hkind := kind?_of_cut h
  rw [kind?] at hkind
  obtain ⟨cell, hcell, heq⟩ := Option.map_eq_some_iff.1 hkind
  rw [isCode, holds, hcell, Option.any_some, Cell.isCode] at hcode
  simpa [heq] using hcode

/-- A text goes on after a character if there is a byte after it. -/
theorem exists_cons_of_lt_size {l r : List Char} {c : Char} (h : src.text.toList = l ++ c :: r)
    (hc : IsAscii c) (hlt : String.utf8Len l + 1 < src.size) :
    ∃ d r', src.text.toList = (l ++ [c]) ++ d :: r' ∧
      String.utf8Len (l ++ [c]) = String.utf8Len l + 1 := by
  have hlen : String.utf8Len (l ++ [c]) = String.utf8Len l + 1 := by
    rw [String.utf8Len_append]
    simp [hc.utf8Size]
  cases r with
  | nil =>
    rw [size_eq, h, hlen] at hlt
    omega
  | cons d r' => exact ⟨d, r', by simp [h], hlen⟩

theorem kind_code_of_ne {c : Char} (h : Mode.code.kind c ≠ .code) : c = '\'' ∨ c = '"' := by
  unfold Mode.kind at h
  split at h <;> simp_all

/-- What follows a plain character of code is code or a quote. -/
theorem byteIs_after (hq : q '\''.toUInt8 = false ∧ q '"'.toUInt8 = false)
    (h : src.holds Cell.isPlain i = true) :
    src.byteIs q (i + 1) = src.holds (fun c => c.isCode && q c.byte) (i + 1) := by
  by_cases hlit : src.isLiteral (i + 1) = true
  · have hascii : src.holds Cell.isAscii i = true := holds_of_imp (fun c hc => by
      rw [Cell.isPlain, Bool.and_eq_true, Bool.and_eq_true] at hc
      exact hc.2.1) h
    obtain ⟨l, c, r, htext, rfl, hc⟩ := cut_of_isAscii hascii
    obtain ⟨d, r', htext', hlen⟩ := exists_cons_of_lt_size htext hc (lt_size_of_holds hlit)
    have hcell := cell_of_cut htext hc
    rw [holds, hcell, Option.any_some, Cell.isPlain, Cell.isCode, Bool.and_eq_true,
      Bool.and_eq_true, beq_iff_eq, bne_iff_ne] at h
    have hmode := Mode.eq_code_of_kind h.1
    have hnext : Mode.code.after (l ++ [c]) = .code := by
      rw [Mode.after_append, hmode]
      change Mode.code.next c = .code
      have hkind := h.1
      rw [hmode] at hkind
      have hdollar : c ≠ '$' := fun heq => h.2.2 (by rw [heq])
      unfold Mode.next
      unfold Mode.kind at hkind
      split <;> simp_all
    rw [← hlen] at hlit ⊢
    have hkind := kind_ne_of_isLiteral htext' hlit
    rw [hnext] at hkind
    have hcell' : src.byteIs q (String.utf8Len (l ++ [c])) = false := by
      rcases kind_code_of_ne hkind with rfl | rfl
      · rw [byteIs, holds, cell_of_cut htext' (by unfold IsAscii; decide), Option.any_some]
        exact hq.1
      · rw [byteIs, holds, cell_of_cut htext' (by unfold IsAscii; decide), Option.any_some]
        exact hq.2
    rw [hcell']
    exact (holds_eq_of (fun c hc => by
      rw [Bool.not_eq_true'] at hc
      rw [hc, Bool.false_and]) hlit).symm
  · have hcode : ∀ c : Cell, src.cells[i + 1]? = some c → c.isCode = true := by
      intro c hc
      rw [isLiteral, holds, hc, Option.any_some] at hlit
      simpa using hlit
    rw [byteIs, holds, holds]
    cases hcell : src.cells[i + 1]? with
    | none => rfl
    | some c => rw [Option.any_some, Option.any_some, hcode c hcell, Bool.true_and]

/-- An identifier character before code is code itself, or the literal after a dollar sign. -/
theorem dollar_before (hlit : src.isLiteral i = true) (hident : src.byteIs Byte.isIdent i = true)
    (hcode : src.isCode (i + 1) = true) : 0 < i ∧ src.codeAt (i - 1) '$' = true := by
  have hascii : src.holds Cell.isAscii i = true := holds_of_imp (fun _ => Cell.isAscii_of_isIdent)
    hident
  obtain ⟨l, c, r, htext, rfl, hc⟩ := cut_of_isAscii hascii
  obtain ⟨d, r', htext', hlen⟩ := exists_cons_of_lt_size htext hc (lt_size_of_holds hcode)
  rw [byteIs, holds, cell_of_cut htext hc, Option.any_some, Byte.isIdent, hc.ofUInt8] at hident
  have hplain := isPlain_of_isIdentRest hident
  have hkind := kind_ne_of_isLiteral htext hlit
  rw [← hlen] at hcode
  have hkind' := Mode.eq_code_of_kind (kind_eq_of_isCode htext' hcode)
  rw [Mode.after_append] at hkind'
  have hnext : (Mode.code.after l).next c = .code := hkind'
  cases hmode : Mode.code.after l with
  | code =>
    rw [hmode, hplain.kind] at hkind
    exact absurd rfl hkind
  | string =>
    have hquote := hplain.2.1
    rw [hmode] at hnext
    unfold Mode.next at hnext
    split at hnext <;> simp_all
  | comment =>
    have hquote := hplain.2.2.1
    rw [hmode] at hnext
    unfold Mode.next at hnext
    split at hnext <;> simp_all
  | character =>
    obtain ⟨l', rfl, hmode'⟩ := exists_dollar hmode
    have hlen' : String.utf8Len (l' ++ ['$']) = String.utf8Len l' + 1 := by
      rw [String.utf8Len_append]
      rfl
    have hcell := cell_of_cut (l := l') (c := '$') (r := c :: r) (by simpa using htext)
      (by unfold IsAscii; decide)
    rw [hmode'] at hcell
    refine ⟨by omega, ?_⟩
    rw [hlen', Nat.add_sub_cancel, codeAt, holds, hcell]
    decide

/-- A run of identifier characters after a plain character of code does not leave the code. -/
theorem runEnd_after (hq : ∀ b, q b = true → Byte.isIdent b = true)
    (h : src.holds Cell.isPlain i = true) :
    src.runEnd (fun c => q c.byte) (i + 1) l =
      src.runEnd (fun c => c.isCode && q c.byte) (i + 1) l := by
  have hquotes : q '\''.toUInt8 = false ∧ q '"'.toUInt8 = false := by
    constructor
    · exact Bool.eq_false_iff.2 fun hquote => absurd (hq _ hquote) (by decide)
    · exact Bool.eq_false_iff.2 fun hquote => absurd (hq _ hquote) (by decide)
  induction hd : l - i generalizing i with
  | zero => rw [runEnd_of_le (by omega), runEnd_of_le (by omega)]
  | succ d ih =>
    have hsame : src.holds (fun c => q c.byte) (i + 1) =
        src.holds (fun c => c.isCode && q c.byte) (i + 1) := byteIs_after hquotes h
    cases hnext : src.holds (fun c => c.isCode && q c.byte) (i + 1) with
    | false => rw [runEnd_of_not_holds hnext, runEnd_of_not_holds (hsame.trans hnext)]
    | true =>
      rcases Nat.lt_or_ge (i + 1) l with hlt | hge
      · rw [runEnd_of_holds hlt hnext, runEnd_of_holds hlt (hsame.trans hnext)]
        refine ih (holds_of_imp (fun c hc => ?_) hnext) (by omega)
        rw [Bool.and_eq_true] at hc
        exact Cell.isPlain_of_isIdent hc.1 (hq _ hc.2)
      · rw [runEnd_of_le hge, runEnd_of_le hge]

/-- The byte is part of a stretch of literals and comments, and neither its first nor its last one. -/
def Buried (src : Source) (i : Nat) : Prop :=
  0 < i ∧ src.isLiteral (i - 1) = true ∧ src.isLiteral i = true ∧ src.isLiteral (i + 1) = true

instance (src : Source) (i : Nat) : Decidable (src.Buried i) :=
  inferInstanceAs (Decidable (_ ∧ _))

theorem not_buried (h : src.isCode i = true) : ¬src.Buried i := by
  intro hburied
  rw [Buried, isLiteral_of_isCode h] at hburied
  simp at hburied

theorem not_buried_before (h : src.isCode i = true) : ¬src.Buried (i - 1) := by
  rintro ⟨hpos, -, -, hliteral⟩
  rw [Nat.sub_add_cancel (by omega), isLiteral_of_isCode h] at hliteral
  simp at hliteral

theorem isCode_of_codeAt {x : Char} (h : src.codeAt i x = true) : src.isCode i = true :=
  holds_of_imp (fun c hc => by rw [Cell.isCodeChar, Bool.and_eq_true] at hc; exact hc.1) h

theorem isCode_of_isWordChar (h : src.holds Cell.isWordChar i = true) : src.isCode i = true :=
  holds_of_imp (fun c hc => by rw [Cell.isWordChar, Bool.and_eq_true] at hc; exact hc.1) h

theorem isCode_of_isLetter (h : src.holds Cell.isLetter i = true) : src.isCode i = true :=
  holds_of_imp (fun c hc => by rw [Cell.isLetter, Bool.and_eq_true] at hc; exact hc.1) h

theorem isPlain_of_codeAt {x : Char} (hx : IsPlain x) (h : src.codeAt i x = true) :
    src.holds Cell.isPlain i = true :=
  holds_of_imp (fun _ => Cell.isPlain_of_isCodeChar hx) h

theorem isPlain_of_isLetter (h : src.holds Cell.isLetter i = true) :
    src.holds Cell.isPlain i = true := by
  refine holds_of_imp (fun c hc => ?_) h
  rw [Cell.isLetter, Bool.and_eq_true] at hc
  exact Cell.isPlain_of_isIdent hc.1 (Cell.isIdent_of_isIdentStart hc.2)

end Source

/-! ## Sources that are read alike -/

/-- With an `s` in front of it, the text at `i` starts like `self` or `super`. -/
def Source.CompletesReceiver (src : Source) (i : Nat) : Prop :=
  src.slice ⟨i, i + 3⟩ = "elf" ∨ src.slice ⟨i, i + 4⟩ = "uper"

/-- The sources have the same marks and the same code, and what stands right before a word or a decimal
point looks the same from there. -/
structure ReadAlike (s t : Source) : Prop where
  bodyStart : t.bodyStart = s.bodyStart
  kinds : ∀ i, t.kind? i = s.kind? i
  code : ∀ i, s.isCode i = true → t.cells[i]? = s.cells[i]?
  /-- A word does not start in the middle of another one. -/
  ident : ∀ i, s.holds Cell.isWordChar i = true →
    t.byteIs Byte.isIdent (i - 1) = s.byteIs Byte.isIdent (i - 1)
  /-- A keyword is not part of a symbol. -/
  symbol : ∀ i, s.holds Cell.isLetter i = true →
    t.byteIs (fun b => b == '#'.toUInt8 || b == ':'.toUInt8) (i - 1) =
      s.byteIs (fun b => b == '#'.toUInt8 || b == ':'.toUInt8) (i - 1)
  /-- A receiver of a keyword send may be `self` or `super`. -/
  receiver : ∀ i, s.holds Cell.isWordChar i = true → s.CompletesReceiver i →
    t.byteIs (· == 's'.toUInt8) (i - 1) = s.byteIs (· == 's'.toUInt8) (i - 1)
  /-- A decimal point stands between digits. -/
  point : ∀ i, s.codeAt i '.' = true → s.byteIs Byte.isDigit (i + 1) = true →
    t.byteIs Byte.isDigit (i - 1) = s.byteIs Byte.isDigit (i - 1)

namespace ReadAlike

variable {s t : Source} (h : ReadAlike s t) {p : Cell → Bool} {q : UInt8 → Bool} {i l : Nat}
  {sp : Span}

include h

theorem size : t.size = s.size := by
  have hle : ∀ i, t.size ≤ i ↔ s.size ≤ i := by
    intro i
    have hkind := h.kinds i
    rw [Source.kind?, Source.kind?] at hkind
    have hnone : t.cells[i]? = none ↔ s.cells[i]? = none := by
      rw [← Option.map_eq_none_iff (f := Cell.kind), hkind, Option.map_eq_none_iff]
    rwa [Array.getElem?_eq_none_iff, Array.getElem?_eq_none_iff] at hnone
  exact Nat.le_antisymm ((hle s.size).2 (Nat.le_refl _)) ((hle t.size).1 (Nat.le_refl _))

/-- Guarded questions have the same answers. -/
theorem holds (hp : Cell.Guarded p) : t.holds p = s.holds p := by
  funext i
  have hkind := h.kinds i
  rw [Source.kind?, Source.kind?] at hkind
  cases hs : s.cells[i]? with
  | none =>
    rw [hs] at hkind
    exact Source.holds_congr ((Option.map_eq_none_iff.1 hkind).trans hs.symm)
  | some c =>
    rw [hs] at hkind
    obtain ⟨d, ht, hkind'⟩ := Option.map_eq_some_iff.1 hkind
    rw [Source.holds, Source.holds, hs, ht, Option.any_some, Option.any_some]
    refine (hp c d hkind'.symm fun hcode => ?_).symm
    have hcell := h.code i (by rwa [Source.isCode, Source.holds, hs])
    rw [hs, ht] at hcell
    rw [Option.some.inj hcell]

theorem isCode : t.isCode = s.isCode := h.holds Cell.guarded_isCode

theorem codeAt : t.codeAt = s.codeAt := by
  funext i x
  exact congrFun (h.holds (Cell.guarded_code fun b => b == x.toUInt8)) i

theorem isCodeSpan : t.isCodeSpan = s.isCodeSpan := by
  funext sp
  rw [Source.isCodeSpan, Source.isCodeSpan, h.size, h.isCode]

theorem codeByte? : t.codeByte? = s.codeByte? := by
  funext i
  by_cases hcode : s.isCode i = true
  · rw [Source.codeByte?, Source.codeByte?, h.code i hcode]
  · have hnone : ∀ {src : Source}, ¬src.isCode i = true → src.codeByte? i = none := by
      intro src hnot
      rw [Source.codeByte?]
      split
      · next b hcell => simp [Source.isCode, Source.holds, hcell, Cell.isCode] at hnot
      · rfl
    rw [hnone hcode, hnone (by rwa [h.isCode])]

theorem nest : t.nest = s.nest := by
  funext n i
  rw [Source.nest, Source.nest, h.codeByte?]

/-! ### Bytes next to code -/

theorem byteIs_after (hq : q '\''.toUInt8 = false ∧ q '"'.toUInt8 = false)
    (hi : s.holds Cell.isPlain i = true) : t.byteIs q (i + 1) = s.byteIs q (i + 1) := by
  have hi' : t.holds Cell.isPlain i = true := by rwa [h.holds Cell.guarded_isPlain]
  rw [Source.byteIs_after hq hi, Source.byteIs_after hq hi', h.holds (Cell.guarded_code q)]

theorem isWordStart (hi : s.holds Cell.isWordChar i = true) : t.isWordStart i = s.isWordStart i := by
  rw [Source.isWordStart, Source.isWordStart, h.ident i hi]

/-- Code in ASCII is spelled alike. -/
theorem slice (hle : sp.start ≤ sp.stop)
    (hcode : ∀ k, sp.start ≤ k → k < sp.stop → s.holds (fun c => c.isCode && c.isAscii) k = true) :
    t.slice sp = s.slice sp := by
  have hslice := Source.slice_congr (s := s) (t := t) (i := sp.start) (j := sp.start)
    (n := sp.stop - sp.start) (fun k hk => ?_) fun k hk => h.code _ ?_
  · rwa [Nat.add_sub_cancel' hle] at hslice
  · exact Source.holds_of_imp (fun c hc => (Bool.and_eq_true_iff.1 hc).2)
      (hcode _ (by omega) (by omega))
  · exact Source.holds_of_imp (fun c hc => (Bool.and_eq_true_iff.1 hc).1)
      (hcode _ (by omega) (by omega))

/-! ### Runs -/

theorem runEnd (hp : Cell.Guarded p) : t.runEnd p = s.runEnd p := by
  funext i l
  fun_induction Source.runEnd s p i l with
  | case1 i hlt hholds ih =>
    rw [Source.runEnd_of_holds hlt (by rwa [h.holds hp]), ih]
  | case2 i hlt hholds =>
    exact Source.runEnd_of_not_holds (by rw [h.holds hp]; simpa using hholds)
  | case3 i hle => exact Source.runEnd_of_le (by omega)

theorem runStart (hp : Cell.Guarded p) : t.runStart p = s.runStart p := by
  funext i l
  fun_induction Source.runStart s p i l with
  | case1 i hlt hholds ih =>
    rw [Source.runStart_of_holds hlt (by rwa [h.holds hp]), ih]
  | case2 i hlt hholds =>
    exact Source.runStart_of_not_holds (by rw [h.holds hp]; simpa using hholds)
  | case3 i hle => exact Source.runStart_of_le (by omega)

theorem find? (hp : Cell.Guarded p) : t.find? p = s.find? p := by
  funext i l
  rw [Source.find?, Source.find?, h.runEnd hp.not, h.holds hp]

theorem find?_char (x : Char) : t.find? (·.isCodeChar x) = s.find? (·.isCodeChar x) :=
  h.find? (Cell.guarded_code fun b => b == x.toUInt8)

theorem skipGap : t.skipGap = s.skipGap := by
  funext i l
  exact congrFun₂ (h.runEnd (Cell.guarded_code Byte.isBlank)) i l

theorem skipGapBack : t.skipGapBack = s.skipGapBack := by
  funext i l
  exact congrFun₂ (h.runStart (Cell.guarded_code Byte.isBlank)) i l

/-- Runs of identifier characters that follow plain code end at the same place. -/
theorem runEnd_after (hq : ∀ b, q b = true → Byte.isIdent b = true)
    (hi : s.holds Cell.isPlain i = true) :
    t.runEnd (fun c => q c.byte) (i + 1) l = s.runEnd (fun c => q c.byte) (i + 1) l := by
  have hi' : t.holds Cell.isPlain i = true := by rwa [h.holds Cell.guarded_isPlain]
  rw [Source.runEnd_after hq hi, Source.runEnd_after hq hi', h.runEnd (Cell.guarded_code q)]

theorem identEnd (hi : s.holds Cell.isPlain i = true) :
    t.identEnd (i + 1) l = s.identEnd (i + 1) l :=
  h.runEnd_after (fun _ => id) hi

/-! ### Tokens -/

theorem wordAt? : t.wordAt? = s.wordAt? := by
  funext i l
  have hletter : t.holds Cell.isLetter = s.holds Cell.isLetter :=
    h.holds (Cell.guarded_code Byte.isIdentStart)
  rw [Source.wordAt?, Source.wordAt?]
  change (if (_ && t.holds Cell.isLetter i && _) = true then _ else _) =
    if (_ && s.holds Cell.isLetter i && _) = true then _ else _
  rw [hletter]
  cases hi : s.holds Cell.isLetter i with
  | false => simp only [Bool.and_false, Bool.false_and, Bool.false_eq_true, if_false]
  | true =>
    rw [h.isWordStart (Source.holds_of_imp (fun _ => Cell.isWordChar_of_isLetter) hi),
      h.identEnd (Source.isPlain_of_isLetter hi), h.isCodeSpan]

theorem isAssignment : t.isAssignment = s.isAssignment := by
  funext i
  rw [Source.isAssignment, Source.isAssignment, h.codeAt]

theorem isKeywordColon : t.isKeywordColon = s.isKeywordColon := by
  funext i
  rw [Source.isKeywordColon, Source.isKeywordColon, h.codeAt, h.isAssignment]

theorem isTerminator : t.isTerminator = s.isTerminator := by
  funext i
  rw [Source.isTerminator, Source.isTerminator, h.codeAt]
  cases hi : s.codeAt i '.' with
  | false => rfl
  | true =>
    rw [h.byteIs_after (by decide) (Source.isPlain_of_codeAt (by decide) hi)]
    cases hnext : s.byteIs Byte.isDigit (i + 1) with
    | false => simp only [Bool.and_false]
    | true => rw [h.point i hi hnext]

theorem binaryAt? : t.binaryAt? = s.binaryAt? := by
  funext i l
  rw [Source.binaryAt?, Source.binaryAt?, h.runEnd (Cell.guarded_code Byte.isBinary)]

theorem keywordAt? : t.keywordAt? = s.keywordAt? := by
  funext i l
  rw [Source.keywordAt?, Source.keywordAt?, h.wordAt?]
  cases hw : s.wordAt? i l with
  | none => rfl
  | some word =>
    simp only [h.isKeywordColon, h.symbol i (Source.wordAt?_eq_some hw).2.1]

theorem keywords : t.keywords = s.keywords := by
  funext region
  rw [Source.keywords, Source.keywords, h.keywordAt?]

theorem words : t.words = s.words := by
  funext region
  rw [Source.words, Source.words, h.wordAt?]

/-! ### Literal arrays and block temporaries -/

theorem groupEnd : t.groupEnd = s.groupEnd := by
  funext n i l
  fun_induction Source.groupEnd s n i l with
  | case1 n i hlt hbyte ih =>
    rw [Source.groupEnd, if_pos hlt, h.codeByte?, hbyte]
    exact ih
  | case2 n i hlt b hbyte hstep =>
    rw [Source.groupEnd, if_pos hlt, h.codeByte?, hbyte]
    simp only [hstep]
  | case3 n i hlt b hbyte n' hstep htop =>
    rw [Source.groupEnd, if_pos hlt, h.codeByte?, hbyte]
    simp only [hstep, htop, if_true]
  | case4 n i hlt b hbyte n' hstep htop ih =>
    rw [Source.groupEnd, if_pos hlt, h.codeByte?, hbyte]
    simp only [hstep, htop]
    exact ih
  | case5 n i hle => exact Source.groupEnd_of_le (by omega)

theorem opensArray : t.opensArray = s.opensArray := by
  funext i
  rw [Source.opensArray, Source.opensArray, h.codeAt]

theorem literalArraysFrom : t.literalArraysFrom = s.literalArraysFrom := by
  funext i l
  fun_induction Source.literalArraysFrom s i l with
  | case1 i hlt hopens ih =>
    rw [Source.literalArraysFrom_of_opens hlt (by rwa [h.opensArray]), h.groupEnd, ih]
  | case2 i hlt hopens ih =>
    rw [Source.literalArraysFrom_of_not_opens (by rw [h.opensArray]; simpa using hopens), ih]
  | case3 i hle => exact Source.literalArraysFrom_of_le (by omega)

theorem literalArrays : t.literalArrays = s.literalArrays := by
  funext region
  rw [Source.literalArrays, Source.literalArrays, h.literalArraysFrom]

theorem skipParameters : t.skipParameters = s.skipParameters := by
  funext i l
  have hend : ∀ {i}, (i < l && s.codeAt i ':') = true →
      t.identEnd (i + 1) l = s.identEnd (i + 1) l := by
    intro i hcolon
    rw [Bool.and_eq_true] at hcolon
    exact h.identEnd (Source.isPlain_of_codeAt (by decide) hcolon.2)
  fun_induction Source.skipParameters s i l with
  | case1 i hcolon hnone =>
    rw [Source.skipParameters, dif_pos (by rwa [h.codeAt]), hend hcolon, dif_pos hnone]
  | case2 i hcolon hsome ih =>
    rw [Source.skipParameters, dif_pos (by rwa [h.codeAt]), hend hcolon, dif_neg hsome, h.skipGap]
    exact ih
  | case3 i hnone => rw [Source.skipParameters, dif_neg (by rwa [h.codeAt])]

theorem blockBodyAt? : t.blockBodyAt? = s.blockBodyAt? := by
  funext i l
  rw [Source.blockBodyAt?, Source.blockBodyAt?, h.skipGap, h.skipParameters, h.codeAt]

theorem blockTemporariesAt? : t.blockTemporariesAt? = s.blockTemporariesAt? := by
  funext i l
  have hnames := h.holds (Cell.guarded_code fun b => Byte.isIdent b || Byte.isBlank b)
  simp only [Source.blockTemporariesAt?, h.codeAt, h.blockBodyAt?, h.find?_char, hnames]

theorem blockTemporaries : t.blockTemporaries = s.blockTemporaries := by
  funext region
  rw [Source.blockTemporaries, Source.blockTemporaries, h.blockTemporariesAt?]

/-! ### The preamble -/

theorem skipTrivia : t.skipTrivia = s.skipTrivia := by
  funext i
  rw [Source.skipTrivia, Source.skipTrivia, h.runEnd Cell.guarded_trivia, h.size]

theorem pragmaAt? : t.pragmaAt? = s.pragmaAt? := by
  funext i
  rw [Source.pragmaAt?, Source.pragmaAt?, h.codeAt, h.find?_char, h.size]
  cases hi : s.codeAt i '<' with
  | false => rfl
  | true => rw [h.byteIs_after (by decide) (Source.isPlain_of_codeAt (by decide) hi)]

theorem pragmasFrom : t.pragmasFrom = s.pragmasFrom := by
  funext i
  fun_induction Source.pragmasFrom s i with
  | case1 i j hnone =>
    rw [Source.pragmasFrom_of_none (by rwa [h.skipTrivia, h.pragmaAt?]), h.skipTrivia]
  | case2 i j pragma hsome rest ih =>
    rw [Source.pragmasFrom_of_some (by rwa [h.skipTrivia, h.pragmaAt?]), ih]

theorem temporariesAt? : t.temporariesAt? = s.temporariesAt? := by
  funext i
  rw [Source.temporariesAt?, Source.temporariesAt?, h.codeAt, h.find?_char, h.size]

theorem preamble : t.preamble = s.preamble := by
  funext i
  rw [Source.preamble, Source.preamble, h.pragmasFrom, h.temporariesAt?]

theorem statementRegion : t.statementRegion = s.statementRegion := by
  rw [Source.statementRegion, Source.statementRegion, h.preamble, h.bodyStart, h.size]

end ReadAlike

/-! ## Sources that are alike -/

/-- The sources differ only inside literals and comments. -/
structure Alike (s t : Source) : Prop where
  bodyStart : t.bodyStart = s.bodyStart
  kinds : ∀ i, t.kind? i = s.kind? i
  bytes : ∀ i, ¬s.Buried i → t.cells[i]?.map (·.byte) = s.cells[i]?.map (·.byte)

namespace Alike

variable {s t : Source} (h : Alike s t) {i : Nat}

include h

theorem cell (hi : ¬s.Buried i) : t.cells[i]? = s.cells[i]? := by
  have hkind := h.kinds i
  have hbyte := h.bytes i hi
  rw [Source.kind?, Source.kind?] at hkind
  cases hs : s.cells[i]? with
  | none => simpa [hs] using hkind
  | some c =>
    rw [hs] at hkind hbyte
    obtain ⟨d, ht, hkind'⟩ := Option.map_eq_some_iff.1 hkind
    rw [ht] at hbyte
    have hbyte' : d.byte = c.byte := Option.some.inj hbyte
    rw [ht]
    cases c
    cases d
    simp_all

/-- What stands before code is not inside a stretch of literals. -/
theorem byteIs_before {q : UInt8 → Bool} (hi : s.isCode i = true) :
    t.byteIs q (i - 1) = s.byteIs q (i - 1) :=
  Source.holds_congr (h.cell (Source.not_buried_before hi))

theorem readAlike : ReadAlike s t :=
  ⟨h.bodyStart, h.kinds, fun _ hi => h.cell (Source.not_buried hi),
    fun _ hi => h.byteIs_before (Source.isCode_of_isWordChar hi),
    fun _ hi => h.byteIs_before (Source.isCode_of_isLetter hi),
    fun _ hi _ => h.byteIs_before (Source.isCode_of_isWordChar hi),
    fun _ hi _ => h.byteIs_before (Source.isCode_of_codeAt hi)⟩

end Alike

/-- It is enough to look at the offsets in the text. -/
theorem alike_iff {s t : Source} : Alike s t ↔ t.bodyStart = s.bodyStart ∧ t.size = s.size ∧
    ∀ i < s.size, t.kind? i = s.kind? i ∧
      (s.Buried i ∨ t.cells[i]?.map (·.byte) = s.cells[i]?.map (·.byte)) := by
  constructor
  · intro h
    refine ⟨h.bodyStart, h.readAlike.size, fun i _ => ⟨h.kinds i, ?_⟩⟩
    by_cases hburied : s.Buried i
    · exact .inl hburied
    · exact .inr (h.bytes i hburied)
  · rintro ⟨hbody, hsize, hall⟩
    have hout : ∀ i, s.size ≤ i → t.cells[i]? = none ∧ s.cells[i]? = none := by
      intro i hi
      have hi' : t.size ≤ i := by rwa [hsize]
      exact ⟨Array.getElem?_eq_none hi', Array.getElem?_eq_none hi⟩
    refine ⟨hbody, fun i => ?_, fun i hburied => ?_⟩
    · rcases Nat.lt_or_ge i s.size with hlt | hge
      · exact (hall i hlt).1
      · rw [Source.kind?, Source.kind?, (hout i hge).1, (hout i hge).2]
    · rcases Nat.lt_or_ge i s.size with hlt | hge
      · exact (hall i hlt).2.resolve_left hburied
      · rw [(hout i hge).1, (hout i hge).2]

instance (s t : Source) : Decidable (Alike s t) := decidable_of_iff _ alike_iff.symm

end MethodBrowser
