import MethodBrowser.Proofs.Send.Tokens
import MethodBrowser.Proofs.Source.Characters
import MethodBrowser.Proofs.Source.Cuts

/-!
# Spans of whole characters

The scanners step from byte to byte, and still no span that they find starts or ends inside a character.

**ASCII bytes.** A byte below 128 is a character by itself, so the text can be cut on both of its sides.
Words, operators and keywords start and end with such bytes (`Source.hasSpan_of_ascii`).

**Other bytes.** The bytes of a longer character are marked alike, and a scanner that passes over white
space, comments or literals treats them alike (`Cell.IsEven`). So where it stops, a character has ended
(`Source.isCut_runEnd`, `Source.isCut_runStart`).
-/

namespace MethodBrowser

open Text

namespace Cell

/-- The test gives the same answer for all bytes of a character. -/
def IsEven (p : Cell → Bool) : Prop :=
  ∀ a b : Cell, a.isAscii = false → b.isAscii = false → a.kind = b.kind → p a = p b

theorem isAscii_of_isBlank {c : Cell} (h : Byte.isBlank c.byte = true) : c.isAscii = true := by
  simp only [Byte.isBlank, Bool.or_eq_true, beq_iff_eq] at h
  rw [isAscii]
  rcases h with (((h | h) | h) | h) | h <;> rw [h] <;> rfl

theorem isEven_not_isSignificant : IsEven fun c => !c.isSignificant := by
  have hblank : ∀ {c : Cell}, c.isAscii = false → Byte.isBlank c.byte = false := fun {c} hc =>
    Bool.eq_false_iff.2 fun h => by simp [isAscii_of_isBlank h] at hc
  intro a b ha hb hkind
  simp only [isSignificant, hkind, hblank ha, hblank hb]

end Cell

namespace Source

variable {src : Source} {i j l k : Nat} {sp : Span}

/-! ## Characters of a source -/

theorem cell_of_character {left right : List Char} {c : Char}
    (h : src.text.toList = left ++ c :: right) (hk : k < c.utf8Size) :
    ∃ b, src.cells[String.utf8Len left + k]? = some ⟨b, (Mode.code.after left).kind c⟩ ∧
      (String.utf8EncodeChar c)[k]? = some b := by
  obtain ⟨b, hcell, hbyte⟩ := classify_of_lt (Mode.code.after left) right hk
  refine ⟨b, ?_, hbyte⟩
  rw [getElem?_cells, h, classify_append, List.getElem?_append_right (by rw [length_classify]; omega),
    length_classify, Nat.add_sub_cancel_left]
  exact hcell

theorem isCut_size (src : Source) : IsCut src.text src.size := by
  rw [size_eq, String.utf8Len_toList]
  exact isCut_end src.text

/-- What such a test answers changes only where a character starts. -/
theorem isCut_of_holds_ne {p : Cell → Bool} (hp : Cell.IsEven p)
    (hne : src.holds p (i + 1) ≠ src.holds p i) : IsCut src.text (i + 1) := by
  rcases Nat.lt_or_ge i src.size with hlt | hge
  · rw [size_eq] at hlt
    obtain ⟨left, c, right, htext, hle, hstop⟩ := exists_character hlt
    rcases Nat.eq_or_lt_of_le (Nat.succ_le_of_lt hstop) with heq | hlt'
    · rw [show i + 1 = _ from heq]
      exact isCut_after htext
    · -- Both bytes belong to one character, which is too long for an ASCII character.
      have hascii : ¬IsAscii c := fun hc => by
        have := hc.utf8Size
        omega
      have hother : ∀ {k : Nat} {b : UInt8}, (String.utf8EncodeChar c)[k]? = some b →
          Cell.isAscii ⟨b, (Mode.code.after left).kind c⟩ = false := fun hb => by
        have := le_of_mem_utf8EncodeChar hascii (List.mem_of_getElem? hb)
        simpa [Cell.isAscii] using this
      obtain ⟨a, hcell, ha⟩ := cell_of_character htext (k := i - String.utf8Len left) (by omega)
      obtain ⟨b, hcell', hb⟩ := cell_of_character htext (k := i + 1 - String.utf8Len left) (by omega)
      rw [Nat.add_sub_cancel' hle] at hcell
      rw [Nat.add_sub_cancel' (by omega)] at hcell'
      refine absurd ?_ hne
      rw [holds, holds, hcell, hcell', Option.any_some, Option.any_some]
      exact hp _ _ (hother hb) (hother ha) rfl
  · rw [holds_of_size_le hge, holds_of_size_le (Nat.le_succ_of_le hge)] at hne
    exact absurd rfl hne

theorem isCut_runEnd {p : Cell → Bool} (hp : Cell.IsEven p) (hi : IsCut src.text i)
    (hl : IsCut src.text l) : IsCut src.text (src.runEnd p i l) := by
  rcases Nat.lt_or_ge i l with hil | hli
  · have hle : src.runEnd p i l ≤ l := runEnd_le (Nat.le_of_lt hil)
    rcases Nat.eq_or_lt_of_le (src.le_runEnd p i l) with heq | hlt
    · rwa [← heq]
    rcases Nat.eq_or_lt_of_le hle with heq' | hlt'
    · rwa [heq']
    · have hlast : src.holds p (src.runEnd p i l - 1) = true :=
        holds_of_lt_runEnd (l := l) (Nat.le_sub_one_of_lt hlt) (by omega)
      have hcut := isCut_of_holds_ne hp (i := src.runEnd p i l - 1) (by
        rw [hlast, Nat.sub_add_cancel (by omega), not_holds_runEnd hlt']
        decide)
      rwa [Nat.sub_add_cancel (by omega)] at hcut
  · rwa [runEnd_of_le hli]

theorem isCut_runStart {p : Cell → Bool} (hp : Cell.IsEven p) (hi : IsCut src.text i)
    (hl : IsCut src.text l) : IsCut src.text (src.runStart p i l) := by
  rcases Nat.lt_or_ge l i with hli | hil
  · have hle : l ≤ src.runStart p i l := le_runStart (Nat.le_of_lt hli)
    rcases Nat.eq_or_lt_of_le (src.runStart_le p i l) with heq | hlt
    · rwa [heq]
    rcases Nat.eq_or_lt_of_le hle with heq' | hlt'
    · rwa [← heq']
    · have hcut := isCut_of_holds_ne hp (i := src.runStart p i l - 1) (by
        rw [Nat.sub_add_cancel (by omega), not_holds_runStart hlt',
          holds_of_runStart_le (Nat.le_refl _) hlt]
        decide)
      rwa [Nat.sub_add_cancel (by omega)] at hcut
  · rwa [runStart_of_le hil]

/-! ## Tokens -/

theorem isCut_of_isAscii (h : src.holds Cell.isAscii i = true) :
    IsCut src.text i ∧ IsCut src.text (i + 1) := by
  obtain ⟨left, c, right, htext, rfl, hc⟩ := cut_of_isAscii h
  exact ⟨isCut_of_append htext, hc.utf8Size ▸ isCut_after htext⟩

/-- A span is one of whole characters if its first and its last byte are ASCII. -/
theorem hasSpan_of_ascii (hlt : sp.start < sp.stop) (hstart : src.holds Cell.isAscii sp.start = true)
    (hstop : src.holds Cell.isAscii (sp.stop - 1) = true) : HasSpan src.text sp := by
  have hlast := (isCut_of_isAscii hstop).2
  rw [Nat.sub_add_cancel (by omega)] at hlast
  exact hasSpan_of_cuts (Nat.le_of_lt hlt) (isCut_of_isAscii hstart).1 hlast

theorem isAscii_of_codeAt {x : Char} (hx : IsAscii x) (h : src.codeAt i x = true) :
    src.holds Cell.isAscii i = true := by
  refine holds_of_imp (fun cell hcell => ?_) h
  rw [Cell.isCodeChar, Bool.and_eq_true, beq_iff_eq] at hcell
  have hbyte : (Char.ofUInt8 cell.byte).toNat < 128 := by
    rw [hcell.2, hx.ofUInt8]
    exact hx
  rw [toNat_ofUInt8] at hbyte
  simpa [Cell.isAscii] using hbyte

theorem hasSpan_of_wordAt? (h : src.wordAt? i l = some sp) : HasSpan src.text sp := by
  obtain ⟨rfl, hlt⟩ := src.wordAt?_bounds h
  have hascii : ∀ {k}, sp.start ≤ k → k < sp.stop → src.holds Cell.isAscii k = true := fun hle hk =>
    holds_of_imp (fun _ hc => Cell.isAscii_of_isIdent (Cell.isIdent_of_isWordChar hc))
      (isWordChar_of_wordAt? h hle hk)
  exact hasSpan_of_ascii hlt (hascii (Nat.le_refl _) hlt) (hascii (by omega) (by omega))

theorem hasSpan_of_keywordAt? (h : src.keywordAt? i l = some sp) : HasSpan src.text sp := by
  obtain ⟨word, hw, -, hcolon, rfl⟩ := keywordAt?_eq_some h
  have hword := hasSpan_of_wordAt? hw
  have hbounds := src.wordAt?_bounds hw
  refine hasSpan_of_cuts (by simp only; omega) (hbounds.1 ▸ hword.start) ?_
  exact (isCut_of_isAscii (isAscii_of_codeAt (by unfold IsAscii; decide) hcolon)).2

theorem hasSpan_of_binaryAt? (h : src.binaryAt? i l = some sp) : HasSpan src.text sp := by
  simp only [binaryAt?] at h
  split at h
  · next hif =>
    obtain rfl := Option.some.inj h
    simp only [Bool.and_eq_true, decide_eq_true_eq] at hif
    have hascii : ∀ {k}, i ≤ k → k < src.runEnd (fun c => c.isCode && Byte.isBinary c.byte) i l →
        src.holds Cell.isAscii k = true := fun hle hk =>
      holds_of_imp (fun _ hc => Cell.isAscii_of_isBinary (Bool.and_eq_true_iff.1 hc).2)
        (holds_of_lt_runEnd hle hk)
    exact hasSpan_of_ascii hif.1 (hascii (Nat.le_refl _) hif.1)
      (hascii (Nat.le_sub_one_of_lt hif.1) (by simp only; omega))
  · simp at h

/-- The identifier characters that end at an offset. -/
theorem hasSpan_runStart (h : src.runStart (fun c => Byte.isIdent c.byte) i l < i) :
    HasSpan src.text ⟨src.runStart (fun c => Byte.isIdent c.byte) i l, i⟩ := by
  have hascii : ∀ {k}, src.runStart (fun c => Byte.isIdent c.byte) i l ≤ k → k < i →
      src.holds Cell.isAscii k = true := fun hle hk =>
    holds_of_imp (fun _ => Cell.isAscii_of_isIdent) (holds_of_runStart_le hle hk)
  exact hasSpan_of_ascii h (hascii (Nat.le_refl _) h) (hascii (Nat.le_sub_one_of_lt h) (by simp only; omega))

/-! ## Sends -/

theorem hasSpan_merge {a b : Span} (ha : HasSpan src.text a) (hb : HasSpan src.text b) :
    HasSpan src.text (a.merge b) := by
  have hle := ha.le
  have hle' := hb.le
  refine hasSpan_of_cuts ?_ ?_ ?_
  · simp only [Span.merge]
    split <;> split <;> omega
  · simp only [Span.merge]
    split
    · exact ha.start
    · exact hb.start
  · simp only [Span.merge]
    split
    · exact hb.stop
    · exact ha.stop

theorem hasSpan_of_mem_tokens {run : KeywordRun} {token : Span}
    (h : run ∈ src.keywordRuns src.sendRegion) (ht : token ∈ run.tokens) : HasSpan src.text token := by
  obtain ⟨first, hfirst, -, rfl, -⟩ := mem_keywordRuns h
  exact hasSpan_of_keywordAt? (mem_keywordRun_tokens hfirst ht).2

theorem hasSpan_of_mem_simpleSends {send : Send} (h : send ∈ src.simpleSends src.sendRegion) :
    HasSpan src.text send.span := by
  obtain ⟨r, k, -, hsend⟩ := mem_simpleSends h
  obtain ⟨htoken, -⟩ := sendAfter?_eq_some.1 hsend
  generalize send.kind = kind at htoken
  cases htoken with
  | unary hw => exact hasSpan_of_wordAt? hw
  | binary hb => exact hasSpan_of_binaryAt? hb

theorem hasSpan_of_mem_sends {send : Send} (h : send ∈ src.sends) : HasSpan src.text send.span := by
  rcases mem_sends.1 h with hmem | hmem
  · rw [keywordSends_eq] at hmem
    obtain ⟨run, hrun, rfl⟩ := List.mem_map.1 hmem
    have hfirst : HasSpan src.text run.first := hasSpan_of_mem_tokens hrun List.mem_cons_self
    refine hasSpan_merge hfirst ?_
    cases hlast : run.rest.getLast? with
    | none => exact hfirst
    | some last =>
      exact hasSpan_of_mem_tokens hrun (List.mem_cons_of_mem _ (List.mem_of_getLast? hlast))
  · exact hasSpan_of_mem_simpleSends hmem

theorem hasSpan_of_mem_tokensOf {send : Send} {token : Span} (h : send ∈ src.sends)
    (ht : token ∈ src.tokensOf send) : HasSpan src.text token := by
  obtain ⟨htoken, -⟩ := token_of_mem_tokensOf h ht
  generalize send.kind = kind at htoken
  cases htoken with
  | keyword hk => exact hasSpan_of_keywordAt? hk
  | unary hw => exact hasSpan_of_wordAt? hw
  | binary hb => exact hasSpan_of_binaryAt? hb

/-! ## The preamble -/

theorem isCut_bodyStart (src : Source) : IsCut src.text src.bodyStart := by
  rcases oneLine_or_newline src.text.toList with hone | ⟨line, rest, htext, hline⟩
  · rw [bodyStart_of_oneLine hone]
    exact src.isCut_size
  · rw [bodyStart_of_newline htext hline]
    exact isCut_after htext

theorem isCut_regionStart (src : Source) : IsCut src.text src.statementRegion.start := by
  have hsucc : ∀ {x : Char}, IsAscii x → src.bodyStart < src.statementRegion.start →
      src.codeAt (src.statementRegion.start - 1) x = true →
      IsCut src.text src.statementRegion.start := fun hx hlt h => by
    have hcut := (isCut_of_isAscii (isAscii_of_codeAt hx h)).2
    rwa [Nat.sub_add_cancel (by omega)] at hcut
  rcases src.region_start_cases with h | ⟨hlt, h | h⟩
  · exact h ▸ src.isCut_bodyStart
  · exact hsucc (by unfold IsAscii; decide) hlt h
  · exact hsucc (by unfold IsAscii; decide) hlt h

theorem hasSpan_of_temporariesAt? (h : src.temporariesAt? i = some sp) : HasSpan src.text sp := by
  obtain ⟨hlt, hlast⟩ := stop_of_temporariesAt? h
  rw [temporariesAt?] at h
  split at h
  · next hbar =>
    obtain ⟨close, -, rfl⟩ := Option.map_eq_some_iff.1 h
    have hascii : IsAscii '|' := by unfold IsAscii; decide
    exact hasSpan_of_ascii (Nat.lt_of_succ_lt hlt) (isAscii_of_codeAt hascii hbar)
      (isAscii_of_codeAt hascii hlast)
  · simp at h

theorem temporaries_preamble (src : Source) (i : Nat) :
    (src.preamble i).temporaries = src.temporariesAt? (src.pragmasFrom i).2 := by
  simp only [preamble]
  cases src.temporariesAt? (src.pragmasFrom i).2 <;> rfl

/-! ## Statements -/

/-- Narrowing a span leaves whole characters. -/
theorem hasSpan_of_trim? {raw : Span} (h : src.trim? raw = some sp) (hstart : IsCut src.text raw.start)
    (hstop : IsCut src.text raw.stop) : HasSpan src.text sp := by
  simp only [trim?] at h
  split at h
  · next hlt =>
    obtain rfl := Option.some.inj h
    have hfirst := isCut_runEnd Cell.isEven_not_isSignificant hstart hstop
    exact hasSpan_of_cuts (le_runStart (Nat.le_of_lt hlt)) hfirst
      (isCut_runStart Cell.isEven_not_isSignificant hstop hfirst)
  · simp at h

/-- The body is cut at periods. -/
theorem isCut_of_mem_pieces {stop start : Nat} {n : Nesting} {is : List Nat} {piece : Span}
    (h : piece ∈ src.pieces stop start n is) (hstart : IsCut src.text start)
    (hstop : IsCut src.text stop) :
    IsCut src.text piece.start ∧ IsCut src.text piece.stop := by
  induction is generalizing start n with
  | nil =>
    obtain rfl := List.mem_singleton.1 h
    exact ⟨hstart, hstop⟩
  | cons k is ih =>
    simp only [pieces] at h
    split at h
    · next hend =>
      rw [Bool.and_eq_true, isTerminator, Bool.and_eq_true] at hend
      obtain ⟨hperiod, hnext⟩ := isCut_of_isAscii (isAscii_of_codeAt isPlain_period.1 hend.2.1)
      rcases List.mem_cons.1 h with rfl | h
      · exact ⟨hstart, hperiod⟩
      · exact ih h hnext
    · exact ih h hstart

theorem hasSpan_of_mem_statementsIn {region : Span} {st : Statement}
    (h : st ∈ src.statementsIn region) (hstart : IsCut src.text region.start)
    (hstop : IsCut src.text region.stop) :
    HasSpan src.text st.span ∧
      (st.kind = .returns → HasSpan src.text { st.span with start := st.span.start + 1 }) := by
  obtain ⟨piece, hpiece, hst⟩ := List.mem_filterMap.1 h
  obtain ⟨trimmed, htrim, rfl⟩ := Option.map_eq_some_iff.1 hst
  obtain ⟨hfirst, hlast⟩ := isCut_of_mem_pieces hpiece hstart hstop
  have hspan := hasSpan_of_trim? htrim hfirst hlast
  refine ⟨hspan, fun hreturns => ?_⟩
  have hcaret : src.codeAt trimmed.start '^' = true := by
    by_contra hnot
    simp only [statementKind, if_neg hnot] at hreturns
    split at hreturns <;> cases hreturns
  have hnext := (isCut_of_isAscii (isAscii_of_codeAt (by unfold IsAscii; decide) hcaret)).2
  have hlt : trimmed.start < trimmed.stop := by
    have hsize : piece.stop ≤ src.size := by
      rw [size_eq, String.utf8Len_toList]
      exact hlast.le
    rcases trim?_cases piece.start hsize with ⟨hnone, -⟩ | ⟨found, hfound, -, hlt, -⟩
    · simp [hnone] at htrim
    · rwa [Option.some.inj (hfound.symm.trans htrim)] at hlt
  exact hasSpan_of_cuts hlt hnext hspan.stop

end Source

end MethodBrowser
