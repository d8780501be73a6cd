import MethodBrowser.Proofs.Send.KeywordPartition
import MethodBrowser.Proofs.Send.Recognition
import MethodBrowser.Proofs.Source.PlainCode

/-!
# Keyword messages written out

A keyword message such as `at: index put: value` is a row of keywords with an argument behind each
(`Source.Phrases`). Read from its first keyword on, its keywords continue one another, whatever the last
argument is (`Source.Phrases.levelTail`), and the names between them receive nothing
(`Source.Phrases.receiverSendsFrom`), because what follows each of them is a keyword again.
-/

namespace MethodBrowser

namespace Source

variable {src : Source} {i j k l m : Nat} {token : Span} {tokens : List Span}

/-! ## Keywords -/

/-- A keyword stands at `i`: white space, a word of `m` characters, a colon and white space. -/
structure KeywordAt (src : Source) (i m : Nat) : Prop where
  pos : 0 < i
  before : src.holds Cell.isGap (i - 1) = true
  word : src.IsWord i m
  colon : src.codeAt (i + m) ':' = true
  gap : src.holds Cell.isGap (i + m + 1) = true

theorem byte_ne_of_isGap {q : UInt8 → Bool} (hq : ∀ b, q b = true → Byte.isBlank b = false)
    (h : src.holds Cell.isGap k = true) : src.byteIs q k = false := by
  refine holds_eq_of (fun c hc => ?_) h
  rw [Cell.isGap, Bool.and_eq_true] at hc
  by_contra hbyte
  rw [hq _ (by simpa using hbyte)] at hc
  simp at hc

theorem not_codeAt_of_isGap {x : Char} (hx : Byte.isBlank x.toUInt8 = false)
    (h : src.holds Cell.isGap k = true) : src.codeAt k x = false := by
  by_contra hcode
  rw [not_isGap_of_codeAt hx (by simpa using hcode)] at h
  simp at h

theorem not_isLetter_of_codeAt {x : Char} (hx : Byte.isIdentStart x.toUInt8 = false)
    (h : src.codeAt k x = true) : src.holds Cell.isLetter k = false := by
  by_contra hletter
  have hcode : src.codeAt k x = false :=
    holds_eq_of (fun _ hc => Cell.isCodeChar_of_isLetter hx hc) (by simpa using hletter)
  simp [h] at hcode

theorem KeywordAt.keywordAt? (h : src.KeywordAt i m) (hl : i + m < l) :
    src.keywordAt? i l = some ⟨i, i + m + 1⟩ := by
  have hassign : src.isAssignment (i + m) = false := by
    rw [isAssignment, not_codeAt_of_isGap (by decide) h.gap, Bool.and_false]
  have hcolon : src.isKeywordColon (i + m) = true := by
    rw [isKeywordColon, h.colon, hassign]
    rfl
  have hmark : src.byteIs (fun b => b == '#'.toUInt8 || b == ':'.toUInt8) (i - 1) = false :=
    byte_ne_of_isGap (fun b hb => by
      rw [Bool.or_eq_true, beq_iff_eq, beq_iff_eq] at hb
      rcases hb with rfl | rfl <;> decide) h.before
  simp [Source.keywordAt?, h.word.wordAt?_eq_some (Nat.le_of_lt hl), hcolon, hmark, hl]

/-! ## Continuing a message -/

theorem not_isLetter_of_isGap (h : src.holds Cell.isGap k = true) : src.holds Cell.isLetter k = false :=
  holds_eq_of (fun c hc => by
    rw [Cell.isGap, Bool.and_eq_true] at hc
    by_contra hletter
    have hident := Cell.isIdent_of_isWordChar (Cell.isWordChar_of_isLetter (by simpa using hletter))
    simp [Cell.isIdent_of_isBlank hc.2] at hident) h

theorem keywordAt?_of_not_isLetter (h : src.holds Cell.isLetter i = false) :
    src.keywordAt? i l = none := by
  simp [keywordAt?, wordAt?_eq, h]

theorem keywordAt?_of_not_colon {word : Span} (h : src.wordAt? i l = some word)
    (hcolon : src.codeAt word.stop ':' = false) : src.keywordAt? i l = none := by
  simp [keywordAt?, h, isKeywordColon, hcolon]

/-- Calm code is passed over, and the keyword that starts there is taken. -/
theorem levelTail_of_calm (hlt : i < l) (h : src.Calm i) :
    src.levelTail .empty i l = (src.keywordAt? i l).toList ++ src.levelTail .empty (i + 1) l := by
  obtain ⟨b, hb, hstep⟩ := h.step?
  conv_lhs => rw [levelTail]
  simp [hlt, hb, h.endsRun, hstep, Nesting.isTopLevel, Nesting.empty]

theorem levelTail_of_quiet (hij : i ≤ j) (hjl : j ≤ l) (hcalm : ∀ k, i ≤ k → k < j → src.Calm k)
    (hnone : ∀ k, i ≤ k → k < j → src.keywordAt? k l = none) :
    src.levelTail .empty i l = src.levelTail .empty j l := by
  induction j, hij using Nat.le_induction with
  | base => rfl
  | succ j hij ih =>
    rw [ih (by omega) (fun k hik hkj => hcalm k hik (by omega)) fun k hik hkj => hnone k hik (by omega),
      levelTail_of_calm hjl (hcalm j hij (by omega)), hnone j hij (by omega)]
    rfl

/-- A keyword that follows calm code continues the message. -/
theorem mem_levelTail_of_calm (hik : i ≤ token.start)
    (hcalm : ∀ k, i ≤ k → k < token.start → src.Calm k)
    (h : src.keywordAt? token.start l = some token) : token ∈ src.levelTail .empty i l := by
  have hstop := codeAt_colon_of_keywordAt? h
  induction hd : token.start - i generalizing i with
  | zero =>
    obtain rfl : i = token.start := by omega
    rw [levelTail_of_keyword h]
    exact List.mem_append_left _ List.mem_cons_self
  | succ d ih =>
    rw [levelTail_of_calm (by omega) (hcalm i (Nat.le_refl _) (by omega))]
    exact List.mem_append_right _
      (ih (by omega) (fun k hk hkt => hcalm k (by omega) hkt) (by omega))

theorem levelTail_of_isGap (hlt : i < l) (h : src.holds Cell.isGap i = true) :
    src.levelTail .empty i l = src.levelTail .empty (i + 1) l := by
  rw [levelTail_of_calm hlt (.inr (.inl h)), keywordAt?_of_not_isLetter (not_isLetter_of_isGap h)]
  rfl

theorem KeywordAt.levelTail (h : src.KeywordAt i m) (hl : i + m + 2 ≤ l) :
    src.levelTail .empty i l = ⟨i, i + m + 1⟩ :: src.levelTail .empty (i + m + 2) l := by
  have hkeyword : src.levelTail .empty (Span.mk i (i + m + 1)).start l = _ :=
    levelTail_of_keyword (h.keywordAt? (by omega))
  simp only [levelTail_of_isGap (show i + m + 1 < l by omega) h.gap] at hkeyword
  exact hkeyword

/-- No keyword stands in a name. -/
theorem IsWord.keywordAt?_eq_none (h : src.IsWord i m) (hcolon : src.codeAt (i + m) ':' = false)
    (hl : i + m ≤ l) (hik : i ≤ k) (hk : k < i + m) : src.keywordAt? k l = none := by
  rcases Nat.eq_or_lt_of_le hik with rfl | hlt
  · exact keywordAt?_of_not_colon (h.wordAt?_eq_some hl) hcolon
  · exact (h.inner (Span.mem_offsets.2 ⟨hlt, hk⟩)).keywordAt?

/-- A name continues no message. -/
theorem IsWord.levelTail (h : src.IsWord i m) (hcolon : src.codeAt (i + m) ':' = false) (hl : i + m ≤ l) :
    src.levelTail .empty i l = src.levelTail .empty (i + m) l := by
  exact levelTail_of_quiet (Nat.le_add_right i m) hl (fun k hik hk => .inl (h.isWordChar hik hk))
    fun k => h.keywordAt?_eq_none hcolon hl

/-- The keywords of a message are those from its first one on. -/
theorem tokens_keywordRun {region : SendRegion}
    (h : src.keywordAt? token.start region.span.stop = some token) :
    (src.keywordRun region token).tokens = src.levelTail .empty token.start region.span.stop := by
  rw [levelTail_of_keyword h]
  simp [keywordRun, KeywordRun.tokens, runTail_eq_levelTail, Nesting.isTopLevel, Nesting.empty]

/-! ## Receivers -/

theorem receiverAt?_eq_none (hident : src.byteIs Byte.isIdent i = false)
    (hcloser : src.isCloser i = false) : src.receiverAt? i l = none := by
  have hletter : src.holds Cell.isLetter i = false := by
    by_contra hletter
    have hchar : src.byteIs Byte.isIdent i = true := holds_of_imp (fun c hc =>
      Cell.isIdent_of_isWordChar (Cell.isWordChar_of_isLetter hc)) (Bool.not_eq_false _ ▸ hletter)
    simp [hident] at hchar
  have hdigit : src.byteIs Byte.isDigit i = false := by
    by_contra hdigit
    simp [isIdent_of_isDigit (Bool.not_eq_false _ ▸ hdigit)] at hident
  simp [receiverAt?, wordAt?_eq, numberAt?, hletter, hdigit, hcloser]

/-- A mark other than a closing bracket receives nothing. -/
theorem receiverAt?_of_codeAt {x : Char} (hident : Byte.isIdent x.toUInt8 = false)
    (hx : x.toUInt8 ≠ ')'.toUInt8 ∧ x.toUInt8 ≠ ']'.toUInt8 ∧ x.toUInt8 ≠ '\x7d'.toUInt8)
    (h : src.codeAt i x = true) : src.receiverAt? i l = none := by
  refine receiverAt?_eq_none (holds_eq_of (fun c hc => ?_) h) ?_
  · rw [Cell.isCodeChar, Bool.and_eq_true, beq_iff_eq] at hc
    rw [hc.2, hident]
  · rw [isCloser, codeAt_ne hx.1 h, codeAt_ne hx.2.1 h, codeAt_ne hx.2.2 h]
    rfl

theorem receiverAt?_of_isGap (h : src.holds Cell.isGap i = true) : src.receiverAt? i l = none := by
  refine receiverAt?_eq_none (byte_ne_of_isGap (fun _ => Cell.isBlank_eq_false_of_isIdent) h) ?_
  rw [isCloser, not_codeAt_of_isGap (by decide) h, not_codeAt_of_isGap (by decide) h,
    not_codeAt_of_isGap (by decide) h]
  rfl

/-- A keyword receives nothing. -/
theorem KeywordAt.receiverSendsFrom (h : src.KeywordAt i m) (hl : i + m ≤ l) :
    src.receiverSendsFrom i l = src.receiverSendsFrom (i + m + 2) l := by
  have hnone : src.receiverAt? i l = none := by
    simp [receiverAt?, h.word.wordAt?_eq_some hl, h.colon]
  rw [receiverSendsFrom_add h.word hnone,
    receiverSendsFrom_of_none (receiverAt?_of_codeAt (by decide) (by decide) h.colon),
    receiverSendsFrom_of_none (receiverAt?_of_isGap h.gap)]

/-- Nothing is sent in front of a keyword. -/
theorem KeywordAt.sendAfter?_eq_none (h : src.KeywordAt (i + 1) m) (hl : i + 1 + m ≤ l) (r : Receiver) :
    src.sendAfter? r i l = none := by
  have hpos := h.word.pos
  have hgap : src.holds Cell.isGap i = true := h.before
  have hletter : src.holds Cell.isGap (i + 1) = false :=
    not_isGap_of_isSignificant (isSignificant_of_isWordChar (h.word.chars 0 hpos))
  have hskip : src.skipGap i l = i + 1 := by
    rw [skipGap, runEnd_of_holds (by omega) hgap, runEnd_of_not_holds hletter]
  simp [sendAfter?, hskip, h.word.wordAt?_eq_some hl, h.colon]

/-- Without a semicolon no cascade is continued. -/
theorem cascadeSendsAt_eq_nil {n : Nesting} {is : List Nat} (h : ∀ k ∈ is, src.codeAt k ';' = false) :
    src.cascadeSendsAt l n is = [] := by
  induction is generalizing n with
  | nil => rfl
  | cons k is ih =>
    rw [List.forall_mem_cons] at h
    simp [cascadeSendsAt, h.1, ih h.2]

/-- Nothing is left out of a region without hash signs and opening brackets. -/
theorem excluded_eq_nil (harrays : ∀ k, i ≤ k → src.codeAt k '#' = false)
    (hblocks : ∀ k, i ≤ k → src.codeAt k '[' = false) : (src.regionFrom i).excluded = [] := by
  have hnone : ∀ k, i ≤ k → src.literalArraysFrom k src.size = [] := fun k hk => by
    induction hd : src.size - k generalizing k with
    | zero => exact literalArraysFrom_of_le (by omega)
    | succ d ih =>
      have hopens : src.opensArray k = false := by rw [opensArray, harrays k hk, Bool.false_and]
      rw [literalArraysFrom_of_not_opens hopens, ih (k + 1) (by omega) (by omega)]
  have htemps : src.blockTemporaries ⟨i, src.size⟩ = [] := List.filterMap_eq_nil_iff.2 fun k hk => by
    rw [blockTemporariesAt?, hblocks k (Span.mem_offsets.1 hk).1]
    rfl
  rw [regionFrom, literalArrays, hnone i (Nat.le_refl i), htemps]
  rfl

/-! ## Messages -/

/-- Keywords with a name behind each, from `i` up to where the next keyword starts. -/
inductive Phrases (src : Source) : Nat → List Span → Nat → Prop
  | nil (i : Nat) : Phrases src i [] i
  | cons {i m k j : Nat} {tokens : List Span} : src.KeywordAt i m → src.IsWord (i + m + 2) k →
      src.holds Cell.isGap (i + m + 2 + k) = true → Phrases src (i + m + 2 + k + 1) tokens j →
      Phrases src i (⟨i, i + m + 1⟩ :: tokens) j

namespace Phrases

theorem le (h : src.Phrases i tokens j) : i ≤ j := by
  induction h with
  | nil i => exact Nat.le_refl i
  | cons _ _ _ _ ih => omega

theorem levelTail (h : src.Phrases i tokens j) (hl : j ≤ l) :
    src.levelTail .empty i l = tokens ++ src.levelTail .empty j l := by
  induction h with
  | nil i => rfl
  | @cons i m k j tokens hkeyword hname hgap hrest ih =>
    have hle := hrest.le
    rw [hkeyword.levelTail (by omega), hname.levelTail (not_codeAt_of_isGap (by decide) hgap) (by omega),
      levelTail_of_isGap (by omega) hgap, ih hl]
    rfl

/-- A keyword stands where a message starts. -/
theorem exists_keywordAt (h : src.Phrases i tokens j) (hlast : src.KeywordAt j m) :
    ∃ m', src.KeywordAt i m' ∧ i + m' ≤ j + m := by
  cases h with
  | nil i => exact ⟨m, hlast, Nat.le_refl _⟩
  | @cons _ m' _ _ _ hkeyword _ _ hrest =>
    have hle := hrest.le
    exact ⟨m', hkeyword, by omega⟩

theorem receiverSendsFrom (h : src.Phrases i tokens j) (hlast : src.KeywordAt j m) (hl : j + m ≤ l) :
    src.receiverSendsFrom i l = src.receiverSendsFrom j l := by
  induction h with
  | nil i => rfl
  | @cons i m' k j tokens hkeyword hname hgap hrest ih =>
    have hle := hrest.le
    obtain ⟨m'', hnext, hle'⟩ := hrest.exists_keywordAt hlast
    have hword := hname.wordAt?_eq_some (l := l) (by omega)
    have hpos := hname.pos
    rw [hkeyword.receiverSendsFrom (by omega), receiverSendsFrom_of_some (by omega)
      (receiverAt?_of_wordAt? hword (not_codeAt_of_isGap (by decide) hgap)),
      hnext.sendAfter?_eq_none (by omega), receiverSendsFrom_of_none (receiverAt?_of_isGap hgap)]
    exact ih hlast hl

end Phrases

/-! ## Messages in a text -/

/-- A keyword and a name, with white space behind each. -/
def phrase (p : List Char × List Char) : List Char := p.1 ++ [':', ' '] ++ (p.2 ++ [' '])

/-- The text of a keyword. -/
def keywordText (w : List Char) : String := String.ofList (w ++ [':'])

theorem Reads.keywordAt {w : List Char} (h : src.Reads i (w ++ [':', ' '])) (hw : isIdentifier w = true)
    (hpos : 0 < i) (hbefore : src.holds Cell.isGap (i - 1) = true) :
    src.KeywordAt i w.length ∧ src.slice ⟨i, i + w.length + 1⟩ = keywordText w := by
  have hcolon := h.right.head
  have hstart : src.isWordStart i = true := by
    rw [isWordStart, byte_ne_of_isGap (fun _ => Cell.isBlank_eq_false_of_isIdent) hbefore, Bool.not_false,
      Bool.or_true]
  refine ⟨⟨hpos, hbefore, h.left.isWord hw hstart (isWordEnd_of_codeAt (by decide) hcolon), hcolon,
    isGap_of_space h.right.tail.head⟩, ?_⟩
  have hkeyword : src.Reads i (w ++ [':']) := Reads.left (v := [' ']) (by simpa using h)
  have hslice := hkeyword.slice
  rwa [List.length_append, ← Nat.add_assoc] at hslice

theorem mem_phrases {pairs : List (List Char × List Char)}
    (hpairs : ∀ p ∈ pairs, isIdentifier p.1 = true ∧ isIdentifier p.2 = true) :
    ∀ c ∈ pairs.flatMap phrase, isIdentRest c = true ∨ c = ' ' ∨ c = ':' := by
  intro c hc
  obtain ⟨p, hp, hc⟩ := List.mem_flatMap.1 hc
  have hident := hpairs p hp
  simp only [phrase, List.mem_append, List.mem_cons, List.not_mem_nil, or_false] at hc
  rcases hc with (hc | rfl | rfl) | hc | rfl
  · exact .inl (isIdentRest_of_isIdentifier hident.1 c hc)
  · exact .inr (.inr rfl)
  · exact .inr (.inl rfl)
  · exact .inl (isIdentRest_of_isIdentifier hident.2 c hc)
  · exact .inr (.inl rfl)

/-- Keywords and names are found as they are written. -/
theorem Reads.exists_phrases {pairs : List (List Char × List Char)} (h : src.Reads i (pairs.flatMap phrase))
    (hpairs : ∀ p ∈ pairs, isIdentifier p.1 = true ∧ isIdentifier p.2 = true) (hpos : 0 < i)
    (hbefore : src.holds Cell.isGap (i - 1) = true) :
    (∃ tokens, src.Phrases i tokens (i + (pairs.flatMap phrase).length) ∧
      tokens.map src.slice = pairs.map fun p => keywordText p.1) ∧
    src.holds Cell.isGap (i + (pairs.flatMap phrase).length - 1) = true := by
  induction pairs generalizing i with
  | nil => exact ⟨⟨[], .nil i, rfl⟩, hbefore⟩
  | cons p pairs ih =>
    obtain ⟨w, a⟩ := p
    rw [List.forall_mem_cons] at hpairs
    rw [List.flatMap_cons] at h ⊢
    have hphrase := h.left
    have hname := hphrase.right
    rw [List.length_append, List.length_cons, List.length_singleton, ← Nat.add_assoc] at hname
    obtain ⟨hkeyword, hslice⟩ := hphrase.left.keywordAt hpairs.1.1 hpos hbefore
    have hspace := hname.right.head
    have hgap := isGap_of_space hspace
    have hstart := isWordStart_of_codeAt (by decide) hphrase.left.right.tail.head
    have hword := hname.left.isWord hpairs.1.2 hstart (isWordEnd_of_codeAt (by decide) hspace)
    have hlen : (phrase (w, a)).length = w.length + 2 + a.length + 1 := by
      simp only [phrase, List.length_append, List.length_cons, List.length_nil]
      omega
    have hrest := h.right
    rw [hlen, ← Nat.add_assoc, ← Nat.add_assoc, ← Nat.add_assoc] at hrest
    obtain ⟨⟨tokens, htokens, hslices⟩, hlast⟩ := ih hrest hpairs.2 (by omega) hgap
    rw [List.length_append, hlen, ← Nat.add_assoc, ← Nat.add_assoc, ← Nat.add_assoc, ← Nat.add_assoc]
    refine ⟨⟨⟨i, i + w.length + 1⟩ :: tokens, .cons hkeyword hword hgap htokens, ?_⟩, hlast⟩
    rw [List.map_cons, List.map_cons, hslice, hslices]

end Source

end MethodBrowser
