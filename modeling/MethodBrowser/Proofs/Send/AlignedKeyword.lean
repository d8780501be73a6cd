import MethodBrowser.Proofs.Send.AlignedSimple
import MethodBrowser.Send.Detect

/-!
# Keyword sends of aligned sources

When the respelled words leave the periods alone, aligned sources have the same keyword runs at
corresponding places (`Alignment.keywordRuns_shift`): each run has its keywords where the other one
has them. So they have the same sends, one by one (`Alignment.sends_shift`), and if only keywords are
respelled, the receivers are the same, too (`Alignment.sends_shift_of_keyword`).
-/

namespace MethodBrowser

namespace Source

variable {src : Source} {i l : Nat} {n : Nesting}

/-- What continues a run, after the byte at `i` has been counted. -/
def runAfter (src : Source) (n : Nesting) (i stop : Nat) : List Span :=
  match src.wordAt? i stop with
  | none => src.runTail n (i + 1) stop
  | some word =>
    match if n.isTopLevel then src.keywordAt? i stop else none with
    | none => src.runTail n word.stop stop
    | some token => token :: src.runTail n token.stop stop

theorem runTail_eq (src : Source) (n : Nesting) (i stop : Nat) :
    src.runTail n i stop =
      if i < stop then
        match src.codeByte? i with
        | none => src.runTail n (i + 1) stop
        | some b =>
          if n.isTopLevel && src.endsRun i then []
          else
            match n.step? b with
            | none => []
            | some n' => src.runAfter n' i stop
      else [] := by
  conv_lhs => rw [runTail]
  by_cases h : i < stop
  · rw [dif_pos h, if_pos h]
    cases hbyte : src.codeByte? i with
    | none => rfl
    | some b =>
      by_cases hend : (n.isTopLevel && src.endsRun i) = true
      · simp only [hend, if_true]
      · simp only [hend, Bool.false_eq_true, if_false]
        cases hstep : n.step? b with
        | none => rfl
        | some n' =>
          simp only [runAfter]
          split
          · simp_all
          · split <;> simp_all
  · rw [dif_neg h, if_neg h]

theorem runTail_of_le (h : l ≤ i) : src.runTail n i l = [] := by
  rw [runTail_eq, if_neg (by omega)]

/-- A word ends no run and opens no group. -/
theorem runTail_of_isWordChar (hlt : i < l) (h : src.holds Cell.isWordChar i = true) :
    src.runTail n i l = src.runAfter n i l := by
  obtain ⟨b, hb, hident⟩ := codeByte?_of_isWordChar h
  have hends : src.endsRun i = false := by
    simp only [endsRun, isTerminator]
    rw [codeAt_of_isWordChar (by decide) h, codeAt_of_isWordChar (by decide) h,
      codeAt_of_isWordChar (by decide) h]
    rfl
  rw [runTail_eq, if_pos hlt]
  simp [hb, hends, Nesting.step?_of_isIdent hident]

theorem IsWord.wordAt?_ne_none {k : Nat} (h : src.IsWord i k) (hl : i + k ≤ l) :
    src.wordAt? i l ≠ none := by
  have hpos := h.pos
  have hcode : src.isCodeSpan ⟨i, i + k⟩ = true := by
    have hlast := lt_size_of_holds h.last
    simp only [isCodeSpan, Bool.and_eq_true, Nat.ble_eq]
    refine ⟨by omega, h.all_holds fun c hc => ?_⟩
    rw [Cell.isWordChar, Bool.and_eq_true] at hc
    exact hc.1
  rw [wordAt?_eq, h.identEnd hl, h.letter, h.left, hcode]
  simp
  omega

/-- White space before a character other than a colon does not start with a colon. -/
theorem codeAt_skipGapBack (src : Source) (h : src.codeAt i ':' = false) :
    src.codeAt (src.skipGapBack i l) ':' = false := by
  have hle : src.skipGapBack i l ≤ i := src.runStart_le Cell.isGap i l
  rcases Nat.eq_or_lt_of_le hle with heq | hlt
  · rwa [heq]
  · have hgap : src.holds Cell.isGap (src.skipGapBack i l) = true :=
      holds_of_runStart_le (Nat.le_refl _) hlt
    refine holds_eq_of (fun c hc => ?_) hgap
    by_contra hne
    rw [Bool.not_eq_false, Cell.isCodeChar, Bool.and_eq_true, beq_iff_eq] at hne
    rw [Cell.isGap, Bool.and_eq_true, hne.2] at hc
    exact absurd hc.2 (by decide)

end Source

namespace Alignment

variable {s t : Source} (A : Alignment s t) {i l : Nat} {sp : Span}

/-! ## The keywords of a run -/

theorem endsRun_shift (hsteady : A.Steady) (hi : A.mark i) :
    t.endsRun (A.shift i) = s.endsRun i := by
  simp only [Source.endsRun, A.isTerminator_shift hsteady hi]
  rw [A.codeAt_shift (by decide) hi, A.codeAt_shift (by decide) hi]

/-- The spans `tokens` of one source and `tokens'` of the other one correspond. -/
def MovedSpans (tokens tokens' : List Span) : Prop :=
  tokens' = tokens.map A.shiftSpan ∧ ∀ token ∈ tokens, A.MarkSpan token

theorem MovedSpans.cons {token : Span} {tokens tokens' : List Span} (h : A.MarkSpan token)
    (hs : A.MovedSpans tokens tokens') :
    A.MovedSpans (token :: tokens) (A.shiftSpan token :: tokens') :=
  ⟨by rw [List.map_cons, hs.1], List.forall_mem_cons.2 ⟨h, hs.2⟩⟩

theorem runAfter_shift {n : Nesting} (hi : A.mark i) (hl : A.mark l)
    (hnext : s.wordAt? i l = none → A.Kept i)
    (ih : ∀ j, i < j → A.mark j →
      A.MovedSpans (s.runTail n j l) (t.runTail n (A.shift j) (A.shift l))) :
    A.MovedSpans (s.runAfter n i l) (t.runAfter n (A.shift i) (A.shift l)) := by
  simp only [Source.runAfter, A.wordAt?_shift hi hl, A.keywordAt?_shift hi hl]
  cases hw : s.wordAt? i l with
  | none =>
    have hk := hnext hw
    simp only [Option.map_none]
    rw [← hk.shift_next]
    exact ih (i + 1) (by omega) hk.next
  | some word =>
    have hword := s.wordAt?_bounds hw
    have hwordMark := A.markSpan_of_wordAt? hi hl hw
    simp only [Option.map_some]
    cases htop : n.isTopLevel with
    | false =>
      simp only [Bool.false_eq_true, if_false]
      exact ih word.stop (by omega) hwordMark.2
    | true =>
      simp only [if_true]
      cases hkw : s.keywordAt? i l with
      | none =>
        simp only [Option.map_none]
        exact ih word.stop (by omega) hwordMark.2
      | some token =>
        have htoken := s.keywordAt?_bounds hkw
        have hmark := A.markSpan_of_keywordAt? hi hl hkw
        simp only [Option.map_some]
        exact (ih token.stop (by omega) hmark.2).cons A hmark

/-- A run goes on with corresponding keywords. -/
theorem runTail_shift (hsteady : A.Steady) (n : Nesting) (hi : A.mark i) (hl : A.mark l) :
    A.MovedSpans (s.runTail n i l) (t.runTail n (A.shift i) (A.shift l)) := by
  induction hd : l - i using Nat.strongRecOn generalizing i n with
  | ind d ih =>
    rcases Nat.lt_or_ge i l with hlt | hle
    · have hlt' := (A.shift_lt_iff hi hl).2 hlt
      have hsize := A.le_size hl
      have hrec : ∀ (n : Nesting) j, i < j → A.mark j →
          A.MovedSpans (s.runTail n j l) (t.runTail n (A.shift j) (A.shift l)) :=
        fun n j hij hj => ih (l - j) (by omega) n hj rfl
      rcases A.step hi (by omega) with hk | ⟨k, m, hw⟩
      · rw [Source.runTail_eq s, Source.runTail_eq t, if_pos hlt, if_pos hlt', A.codeByte?_shift hk,
          A.endsRun_shift hsteady hi]
        cases s.codeByte? i with
        | none =>
          simp only
          rw [← hk.shift_next]
          exact hrec n (i + 1) (by omega) hk.next
        | some b =>
          simp only
          by_cases hend : (n.isTopLevel && s.endsRun i) = true
          · rw [if_pos hend, if_pos hend]
            exact ⟨rfl, by simp⟩
          · rw [if_neg hend, if_neg hend]
            cases n.step? b with
            | none => exact ⟨rfl, by simp⟩
            | some n' => exact A.runAfter_shift hi hl (fun _ => hk) (hrec n')
      · have hpos := hw.old.pos
        have hin := hw.inside hl hlt
        rw [Source.runTail_of_isWordChar hlt (hw.old.chars 0 (by omega)),
          Source.runTail_of_isWordChar hlt' (hw.new.chars 0 hw.new.pos)]
        exact A.runAfter_shift hi hl (fun hnone => absurd hnone (hw.old.wordAt?_ne_none hin))
          (hrec n)
    · have hle' := (A.shift_le_iff hl hi).2 hle
      rw [Source.runTail_of_le hle, Source.runTail_of_le hle']
      exact ⟨rfl, by simp⟩

/-! ## The receiver of a run -/

/-- Only keywords being respelled, what stands before a character other than a colon is kept. -/
theorem back_of_not_colon (hkey : A.keyword) (hi : A.mark i) (h : s.codeAt i ':' = false) :
    t.cells[A.shift i - 1]? = s.cells[i - 1]? ∧
      (s.bodyStart < i → A.mark (i - 1) ∧ A.shift (i - 1) = A.shift i - 1) := by
  rcases A.back hi with hback | ⟨k, n, m, -, hw, rfl⟩
  · exact hback
  · rw [(hw.colon hkey).1] at h
    simp at h

theorem runStart_isIdent_shift (hkey : A.keyword) (hi : A.mark i) (hl : A.mark l)
    (hcolon : s.codeAt i ':' = false) :
    A.mark (s.runStart (fun c => Byte.isIdent c.byte) i l) ∧
      t.runStart (fun c => Byte.isIdent c.byte) (A.shift i) (A.shift l) =
        A.shift (s.runStart (fun c => Byte.isIdent c.byte) i l) := by
  induction i using Nat.strongRecOn with
  | ind i ih =>
    rcases Nat.lt_or_ge l i with hlt | hle
    · have hlt' := (A.shift_lt_iff hl hi).2 hlt
      obtain ⟨hcell, hback⟩ := A.back_of_not_colon hkey hi hcolon
      have hholds := Source.holds_congr (p := fun c => Byte.isIdent c.byte) hcell
      cases h : s.holds (fun c => Byte.isIdent c.byte) (i - 1) with
      | false =>
        rw [Source.runStart_of_not_holds h, Source.runStart_of_not_holds (hholds.trans h)]
        exact ⟨hi, rfl⟩
      | true =>
        obtain ⟨hi', hshift⟩ := hback (by have := A.bodyStart_le hl; omega)
        rw [Source.runStart_of_holds hlt h, Source.runStart_of_holds hlt' (hholds.trans h),
          ← hshift]
        refine ih (i - 1) (by omega) hi' (Source.holds_eq_of (fun c hc => ?_) h)
        -- A colon is no identifier character.
        by_contra hne
        rw [Bool.not_eq_false, Cell.isCodeChar, Bool.and_eq_true, beq_iff_eq] at hne
        rw [hne.2] at hc
        exact absurd hc (by decide)
    · have hle' := (A.shift_le_iff hi hl).2 hle
      rw [Source.runStart_of_le hle, Source.runStart_of_le hle']
      exact ⟨hi, rfl⟩

/-- The identifier characters before a character other than a colon are spelled alike. -/
theorem slice_runStart_shift {j : Nat} (hkey : A.keyword) (hi : A.mark i) (hj : A.mark j)
    (hlt : j < i) (hcolon : s.codeAt i ':' = false)
    (h : ∀ k, j ≤ k → k < i → s.byteIs Byte.isIdent k = true) :
    t.slice ⟨A.shift j, A.shift i⟩ = s.slice ⟨j, i⟩ := by
  have hkept : A.Kept j := by
    rcases A.step hj (by have := A.le_size hi; omega) with hk | ⟨n, m, hw⟩
    · exact hk
    · have hin := hw.inside hi hlt
      rcases Nat.eq_or_lt_of_le hin with rfl | hlt'
      · rw [(hw.colon hkey).1] at hcolon
        simp at hcolon
      · have hright := hw.old.right
        rw [Source.isWordEnd, h (j + n) (by omega) hlt'] at hright
        simp at hright
  have hspell := A.slice_shift_of_isIdent (n := i - j) hj hkept fun k hk =>
    h (j + k) (by omega) (by omega)
  rw [show j + (i - j) = i by omega] at hspell
  exact hspell.2

theorem keywordReceiver_shift (hkey : A.keyword) (hi : A.mark i) (hl : A.mark l)
    (hcolon : s.codeAt i ':' = false) :
    t.keywordReceiver (A.shift i) (A.shift l) = s.keywordReceiver i l := by
  have hgap : ∀ c : Cell, c.isWordChar = true → c.isGap = false := fun c hc => by
    simp [Cell.isGap, Cell.isBlank_eq_false_of_isIdent (Cell.isIdent_of_isWordChar hc)]
  obtain ⟨hbefore, hbefore'⟩ : A.mark (s.skipGapBack i l) ∧
      t.skipGapBack (A.shift i) (A.shift l) = A.shift (s.skipGapBack i l) :=
    A.runStart_shift hgap hi hl
  have hcode : t.isCode (A.shift (s.skipGapBack i l) - 1) = s.isCode (s.skipGapBack i l - 1) :=
    A.holds_before (b := true) (fun c hc => by
      rw [Cell.isWordChar, Bool.and_eq_true] at hc
      exact hc.1) hbefore
  have hsemi : t.codeAt (A.shift (s.skipGapBack i l) - 1) ';' =
      s.codeAt (s.skipGapBack i l - 1) ';' :=
    A.holds_before (b := false) (fun c hc => by
      simp [Cell.isCodeChar, Cell.byte_ne_of_isWordChar hc (b := ';'.toUInt8) (by decide)]) hbefore
  have hcolon' := s.codeAt_skipGapBack (l := l) hcolon
  obtain ⟨hstart, hstart'⟩ := A.runStart_isIdent_shift hkey hbefore hl hcolon'
  have hle := s.runStart_le (fun c => Byte.isIdent c.byte) (s.skipGapBack i l) l
  simp only [Source.keywordReceiver, hbefore', hcode, hsemi, hstart', A.isWordStart_shift hstart,
    A.shift_inj hbefore hl, A.shift_inj hstart hbefore]
  split
  · rfl
  · split
    · rfl
    · split
      · rfl
      · next hne =>
        simp only [Bool.or_eq_true, decide_eq_true_eq, not_or] at hne
        rw [A.slice_runStart_shift hkey hbefore hstart (by omega) hcolon' fun k =>
          Source.holds_of_runStart_le]

/-! ## Runs -/

/-- The counterpart of a run. Its selector and its receiver are what the other source says. -/
def shiftRun (run : KeywordRun) : KeywordRun :=
  ⟨A.shiftSpan run.first, run.rest.map A.shiftSpan,
    String.join ((run.tokens.map A.shiftSpan).map t.slice),
    t.keywordReceiver (A.shift run.first.start) t.sendRegion.span.start⟩

@[simp] theorem shiftRun_tokens (run : KeywordRun) :
    (A.shiftRun run).tokens = run.tokens.map A.shiftSpan :=
  rfl

/-- A keyword with a counterpart. -/
structure MarkKeyword (token : Span) : Prop where
  mark : A.MarkSpan token
  start : s.codeAt token.start ':' = false

theorem markKeyword_of_mem_keywords (h : A.MarkSpan sp) {token : Span}
    (ht : token ∈ s.keywords sp) : A.MarkKeyword token := by
  refine ⟨A.markSpan_of_mem_keywords h ht, ?_⟩
  obtain ⟨k, -, hfound⟩ := List.mem_filterMap.1 ht
  obtain ⟨word, hw, -, -, rfl⟩ := Source.keywordAt?_eq_some hfound
  obtain ⟨-, hletter, -⟩ := Source.wordAt?_eq_some hw
  exact Source.holds_eq_of (fun c hc => Cell.isCodeChar_of_isLetter (by decide) hc) hletter

/-- A run with a counterpart. -/
structure MarkRun (run : KeywordRun) : Prop where
  tokens : ∀ token ∈ run.tokens, A.MarkSpan token
  receiver : A.keyword → (A.shiftRun run).receiver = run.receiver

theorem keywordRun_shift (hsteady : A.Steady) {first : Span} (h : A.MarkKeyword first) :
    t.keywordRun t.sendRegion (A.shiftSpan first) = A.shiftRun (s.keywordRun s.sendRegion first) ∧
      A.MarkRun (s.keywordRun s.sendRegion first) := by
  obtain ⟨hmark, hregion⟩ := A.statementRegion_shift
  have hspan : t.sendRegion.span = A.shiftSpan s.statementRegion := hregion
  obtain ⟨htail, htailMark⟩ := A.runTail_shift hsteady .empty h.mark.2 hmark.2
  refine ⟨?_, List.forall_mem_cons.2 ⟨h.mark, htailMark⟩, fun hkey => ?_⟩
  · simp only [Source.keywordRun, hspan, shiftSpan, shiftRun, KeywordRun.tokens] at htail ⊢
    rw [htail]
    rfl
  · simp only [shiftRun, hspan]
    exact A.keywordReceiver_shift hkey h.mark.1 hmark.1 h.start

theorem contains_shift_starts {starts : List Nat} (h : ∀ k ∈ starts, A.mark k) (hi : A.mark i) :
    (starts.map A.shift).contains (A.shift i) = starts.contains i := by
  rw [Bool.eq_iff_iff, List.contains_iff_mem, List.contains_iff_mem, List.mem_map]
  constructor
  · rintro ⟨k, hk, heq⟩
    rwa [← (A.shift_inj (h k hk) hi).1 heq]
  · exact fun hmem => ⟨i, hmem, rfl⟩

theorem all_admits_shift {tokens : List Span} (h : ∀ token ∈ tokens, A.MarkSpan token) :
    (tokens.map A.shiftSpan).all t.sendRegion.admits = tokens.all s.sendRegion.admits := by
  rw [List.all_map, Bool.eq_iff_iff, List.all_eq_true, List.all_eq_true]
  refine forall_congr' fun token => forall_congr' fun htoken => ?_
  rw [Function.comp_apply, A.admits_shift (h token htoken)]

theorem runsOf_shift (hsteady : A.Steady) {taken : List Nat} {tokens : List Span}
    (htaken : ∀ k ∈ taken, A.mark k) (htokens : ∀ token ∈ tokens, A.MarkKeyword token) :
    t.runsOf t.sendRegion (taken.map A.shift) (tokens.map A.shiftSpan) =
        (s.runsOf s.sendRegion taken tokens).map A.shiftRun ∧
      ∀ run ∈ s.runsOf s.sendRegion taken tokens, A.MarkRun run := by
  induction tokens generalizing taken with
  | nil => exact ⟨rfl, by simp [Source.runsOf]⟩
  | cons first others ih =>
    rw [List.forall_mem_cons] at htokens
    have hcontains := A.contains_shift_starts htaken htokens.1.mark.1
    have hadmits := A.admits_shift htokens.1.mark
    obtain ⟨hrun, hrunMark⟩ := A.keywordRun_shift hsteady htokens.1
    simp only [List.map_cons, Source.runsOf]
    rw [show (A.shiftSpan first).start = A.shift first.start from rfl, hcontains, hadmits, hrun]
    by_cases hskip : (taken.contains first.start || !s.sendRegion.admits first) = true
    · rw [if_pos hskip, if_pos hskip]
      exact ih htaken htokens.2
    · rw [if_neg hskip, if_neg hskip]
      have hstarts : ((A.shiftRun (s.keywordRun s.sendRegion first)).tokens.map (·.start)) =
          ((s.keywordRun s.sendRegion first).tokens.map (·.start)).map A.shift := by
        rw [shiftRun_tokens, List.map_map, List.map_map]
        rfl
      have hmarks : ∀ k ∈ (s.keywordRun s.sendRegion first).tokens.map (·.start) ++ taken,
          A.mark k := by
        refine List.forall_mem_append.2 ⟨fun k hk => ?_, htaken⟩
        obtain ⟨token, htoken, rfl⟩ := List.mem_map.1 hk
        exact (hrunMark.tokens token htoken).1
      obtain ⟨hrest, hrestMark⟩ := ih hmarks htokens.2
      rw [hstarts, ← List.map_append, hrest, shiftRun_tokens, A.all_admits_shift hrunMark.tokens]
      by_cases hall : ((s.keywordRun s.sendRegion first).tokens.all s.sendRegion.admits) = true
      · rw [if_pos hall, if_pos hall]
        exact ⟨rfl, List.forall_mem_cons.2 ⟨hrunMark, hrestMark⟩⟩
      · rw [if_neg hall, if_neg hall]
        exact ⟨rfl, hrestMark⟩

/-- The keyword runs of aligned sources stand at corresponding places. -/
theorem keywordRuns_shift (hsteady : A.Steady) :
    t.keywordRuns t.sendRegion = (s.keywordRuns s.sendRegion).map A.shiftRun ∧
      ∀ run ∈ s.keywordRuns s.sendRegion, A.MarkRun run := by
  obtain ⟨hmark, hregion⟩ := A.statementRegion_shift
  have hspan : t.sendRegion.span = A.shiftSpan s.statementRegion := hregion
  have htaken : ∀ k ∈ ([] : List Nat), A.mark k := by simp
  have hruns := A.runsOf_shift hsteady htaken fun _ => A.markKeyword_of_mem_keywords hmark
  rw [← A.keywords_shift hmark] at hruns
  simp only [Source.keywordRuns, hspan]
  exact hruns

/-! ## Sends -/

theorem merge_shift {u v : Span} (hu : A.MarkSpan u) (hv : A.MarkSpan v) :
    (A.shiftSpan u).merge (A.shiftSpan v) = A.shiftSpan (u.merge v) ∧ A.MarkSpan (u.merge v) := by
  simp only [Span.merge, shiftSpan, MarkSpan, A.shift_lt_iff hu.1 hv.1, A.shift_lt_iff hu.2 hv.2]
  split <;> split <;> exact ⟨rfl, by simp only [hu.1, hu.2, hv.1, hv.2, and_self]⟩

theorem shiftRun_span {run : KeywordRun} (h : ∀ token ∈ run.tokens, A.MarkSpan token) :
    (A.shiftRun run).span = A.shiftSpan run.span ∧ A.MarkSpan run.span := by
  have hlast : A.MarkSpan (run.rest.getLast?.getD run.first) := by
    cases hl : run.rest.getLast? with
    | none => exact h _ (by simp [KeywordRun.tokens])
    | some last => exact h _ (List.mem_cons_of_mem _ (List.mem_of_getLast? hl))
  have hmerge := A.merge_shift (h run.first (by simp [KeywordRun.tokens])) hlast
  refine ⟨?_, hmerge.2⟩
  rw [KeywordRun.span, KeywordRun.span, ← hmerge.1]
  simp only [shiftRun, List.getLast?_map]
  cases run.rest.getLast? <;> rfl

theorem le_shift {u v : Span} (hu : A.MarkSpan u) (hv : A.MarkSpan v) :
    (A.shiftSpan u).le (A.shiftSpan v) = u.le v := by
  simp only [Span.le, Span.compare, compareOfLessAndEq, shiftSpan, A.shift_lt_iff hu.1 hv.1,
    A.shift_lt_iff hu.2 hv.2, A.shift_inj hu.1 hv.1, A.shift_inj hu.2 hv.2]

/-- The sends `a` and `b` stand at corresponding places, and `φ` is applied to the selector. -/
structure Renamed (φ : String → String) (a b : Send) : Prop where
  kind : b.kind = a.kind
  span : b.span = A.shiftSpan a.span
  mark : A.MarkSpan a.span
  tokens : b.tokens = a.tokens
  receiver : A.keyword → b.receiver = a.receiver
  selector : b.selector = φ a.selector

theorem keywordSends_shift (hsteady : A.Steady) {φ : String → String}
    (hφ : ∀ run ∈ s.keywordRuns s.sendRegion, (A.shiftRun run).selector = φ run.selector) :
    List.Forall₂ (A.Renamed φ) (s.keywordSends s.sendRegion) (t.keywordSends t.sendRegion) := by
  obtain ⟨hmark, hregion⟩ := A.statementRegion_shift
  have hspan : t.sendRegion.span = A.shiftSpan s.sendRegion.span := hregion
  obtain ⟨hruns, hrunsMark⟩ := A.keywordRuns_shift hsteady
  have hsends : List.Forall₂ (A.Renamed φ) ((s.keywordRuns s.sendRegion).map KeywordRun.toSend)
      ((t.keywordRuns t.sendRegion).map KeywordRun.toSend) := by
    rw [hruns, List.map_map, List.forall₂_map_left_iff, List.forall₂_map_right_iff,
      List.forall₂_same]
    intro run hrun
    have hrunMark := hrunsMark run hrun
    obtain ⟨hrunSpan, hspanMark⟩ := A.shiftRun_span hrunMark.tokens
    have htokens : (A.shiftRun run).tokens.length = run.tokens.length := by
      rw [shiftRun_tokens, List.length_map]
    exact ⟨rfl, hrunSpan, hspanMark, htokens, hrunMark.receiver, hφ run hrun⟩
  refine List.rel_filter (R := A.Renamed φ) (fun a b hab => ?_) hsends
  have hcontains := A.contains_shift hab.mark hmark
  simp only [hab.span, hspan]
  exact (Bool.eq_iff_iff.1 hcontains).symm

theorem mark_of_moved {as bs : List Send} (h : List.Forall₂ A.Moved as bs) :
    ∀ a ∈ as, A.MarkSpan a.span := by
  induction h with
  | nil => simp
  | cons hab _ ih => exact List.forall_mem_cons.2 ⟨hab.mark, ih⟩

theorem renamed_of_moved {φ : String → String} {a b : Send} (h : A.Moved a b)
    (hselector : b.selector = φ a.selector) : A.Renamed φ a b :=
  ⟨h.kind, h.span, h.mark, h.tokens, h.receiver, hselector⟩

theorem forall₂_renamed {φ : String → String} {as bs : List Send} (h : List.Forall₂ A.Moved as bs)
    (hφ : ∀ a ∈ as, ∀ b ∈ bs, A.Moved a b → b.selector = φ a.selector) :
    List.Forall₂ (A.Renamed φ) as bs := by
  induction h with
  | nil => exact .nil
  | @cons a b as bs hab _ ih =>
    refine .cons (A.renamed_of_moved hab (hφ a (by simp) b (by simp) hab)) (ih fun a ha b hb => ?_)
    exact hφ a (List.mem_cons_of_mem _ ha) b (List.mem_cons_of_mem _ hb)

/-- Sorting keeps counterparts together. -/
theorem renamed_mergeSort {φ : String → String} {as bs : List Send}
    (h : List.Forall₂ (A.Renamed φ) as bs) :
    List.Forall₂ (A.Renamed φ) (as.mergeSort fun a b => a.span.le b.span)
      (bs.mergeSort fun a b => a.span.le b.span) := by
  -- The pairs are sorted by their first and by their second parts alike.
  obtain ⟨pairs, rfl, rfl, hpairs⟩ : ∃ pairs : List (Send × Send), pairs.map Prod.fst = as ∧
      pairs.map Prod.snd = bs ∧ ∀ p ∈ pairs, A.Renamed φ p.1 p.2 :=
    ⟨as.zip bs, List.map_fst_zip (Nat.le_of_eq h.length_eq),
      List.map_snd_zip (Nat.le_of_eq h.length_eq.symm), fun p hp => (List.forall₂_iff_zip.1 h).2 hp⟩
  rw [← List.map_mergeSort (r := fun p q => p.1.span.le q.1.span) (by simp),
    ← List.map_mergeSort (r := fun p q => p.1.span.le q.1.span), List.forall₂_map_left_iff,
    List.forall₂_map_right_iff, List.forall₂_same]
  · exact fun p hp => hpairs p (List.mem_mergeSort.1 hp)
  · intro p hp q hq
    rw [(hpairs p hp).span, (hpairs q hq).span, A.le_shift (hpairs p hp).mark (hpairs q hq).mark]

/-- The sends of aligned sources are the same one by one, at corresponding places and with `φ`
applied to their selectors. -/
theorem sends_shift (hsteady : A.Steady) {φ : String → String}
    (hruns : ∀ run ∈ s.keywordRuns s.sendRegion, (A.shiftRun run).selector = φ run.selector)
    (hsimple : List.Forall₂ (A.Renamed φ) (s.simpleSends s.sendRegion)
      (t.simpleSends t.sendRegion)) :
    List.Forall₂ (A.Renamed φ) s.sends t.sends :=
  A.renamed_mergeSort (List.rel_append (A.keywordSends_shift hsteady hruns) hsimple)

/-- The counterpart of a send whose selector is spelled anew. -/
def shiftSend (φ : String → String) (send : Send) : Send :=
  { send with selector := φ send.selector, span := A.shiftSpan send.span }

/-- When only keywords are respelled, receivers are the same, too. -/
theorem eq_map_of_renamed (hkey : A.keyword) {φ : String → String} {as bs : List Send}
    (h : List.Forall₂ (A.Renamed φ) as bs) : bs = as.map (A.shiftSend φ) := by
  induction h with
  | nil => rfl
  | @cons a b as bs hab _ ih =>
    have hb : b = A.shiftSend φ a := by
      obtain ⟨hkind, hspan, -, htokens, hreceiver, hselector⟩ := hab
      cases b
      simp_all [shiftSend]
    rw [List.map_cons, ← hb, ← ih]

theorem sends_shift_of_keyword (hkey : A.keyword) {φ : String → String}
    (hruns : ∀ run ∈ s.keywordRuns s.sendRegion, (A.shiftRun run).selector = φ run.selector)
    (hsimple : ∀ send ∈ s.simpleSends s.sendRegion, φ send.selector = send.selector) :
    t.sends = s.sends.map (A.shiftSend φ) := by
  refine A.eq_map_of_renamed hkey (A.sends_shift (A.steady_of_keyword hkey) hruns
    (A.forall₂_renamed A.simpleSends_shift fun a ha b _ hab => ?_))
  rw [hab.selector hkey, hsimple a ha]

end Alignment

end MethodBrowser
