import MethodBrowser.Proofs.Source.ExcerptRegion

/-!
# The sends of an excerpt

The sends that a method has in a statement are those that the statement has by itself
(`Excerpt.sends_shift`).

**Three parts.** Each list of sends is a scan over the body. It splits into what is found before the
statement, in it and after it. What is found in it is the scan of the statement by itself. Nothing that is
found before reaches the statement, because of the period in front of it; nothing that is found after it
starts in it.
-/

namespace MethodBrowser

/-- A run moved by `o` bytes. -/
def KeywordRun.shift (o : Nat) (run : KeywordRun) : KeywordRun :=
  ⟨run.first.shift o, run.rest.map (Span.shift o), run.selector, run.receiver⟩

theorem KeywordRun.tokens_shift (o : Nat) (run : KeywordRun) :
    (run.shift o).tokens = run.tokens.map (Span.shift o) := rfl

theorem KeywordRun.toSend_shift (o : Nat) (run : KeywordRun) :
    (run.shift o).toSend = run.toSend.shift o := by
  have hmerge : ∀ a b : Span, (a.shift o).merge (b.shift o) = (a.merge b).shift o := fun a b => by
    simp only [Span.merge, Span.shift, Nat.add_lt_add_iff_left]
    split <;> split <;> rfl
  have hlast : ((run.shift o).rest.getLast?).getD (run.shift o).first =
      (run.rest.getLast?.getD run.first).shift o := by
    simp only [shift, List.getLast?_map]
    cases run.rest.getLast? <;> rfl
  simp only [toSend, Send.shift, span, hlast]
  rw [KeywordRun.tokens_shift, List.length_map, shift, hmerge]

namespace Source

variable {src : Source} {i l : Nat} {m : Nesting}

theorem levelTail_eq (hlt : i < l) : src.levelTail m i l =
    match src.codeByte? i with
    | none => src.levelTail m (i + 1) l
    | some b =>
      if m.isTopLevel && src.endsRun i then []
      else
        match m.step? b with
        | none => []
        | some m' =>
          (if m'.isTopLevel then (src.keywordAt? i l).toList else []) ++
            src.levelTail m' (i + 1) l := by
  have heq := levelTail.eq_def src m i l
  rw [if_pos hlt] at heq
  exact heq

theorem le_runStart {p : Cell → Bool} {floor : Nat} (h : floor ≤ i) :
    floor ≤ src.runStart p i floor := by
  fun_induction runStart src p i floor <;> omega

/-- Code other than white space is significant. -/
theorem isSignificant_of_isCode (hcode : src.isCode i = true) (hgap : src.holds Cell.isGap i = false) :
    src.isSignificant i = true := by
  have hlt := lt_size_of_holds hcode
  rw [isCode, holds, Array.getElem?_eq_getElem hlt, Option.any_some] at hcode
  rw [holds, Array.getElem?_eq_getElem hlt, Option.any_some, Cell.isGap, hcode, Bool.true_and] at hgap
  rw [Cell.isCode, beq_iff_eq] at hcode
  rw [isSignificant, holds, Array.getElem?_eq_getElem hlt, Option.any_some, Cell.isSignificant, hcode,
    hgap]
  rfl

/-! ## Receivers end before a period that ends a statement -/

theorem not_isTerminator (h : src.codeAt i '.' = false) : src.isTerminator i = false := by
  rw [isTerminator, h]
  rfl

theorem not_period_of_isDigit (h : src.byteIs Byte.isDigit i = true) : src.codeAt i '.' = false :=
  not_period_of_isIdent (isIdent_of_isDigit h)

theorem isDigit_of_numberAt?_start {number : Span} (h : src.numberAt? i l = some number) :
    src.byteIs Byte.isDigit i = true := by
  rw [numberAt?_eq] at h
  split at h
  · next hdigit => exact (Bool.and_eq_true_iff.1 hdigit).1
  · simp at h

/-- The point of a decimal number ends no statement. -/
theorem number_chars {number : Span} (h : src.numberAt? i l = some number) {k : Nat} (hik : i ≤ k)
    (hk : k < number.stop) : src.isTerminator k = false := by
  rw [numberAt?_eq] at h
  split at h
  · next hdigit =>
    rw [Bool.and_eq_true] at hdigit
    split at h
    · obtain rfl := Option.some.inj h
      generalize hw : src.digitsEnd (i + 1) l = whole at hk
      have hlast : src.byteIs Byte.isDigit (whole - 1) = true := hw ▸ isDigit_digitsEnd hdigit.1
      have hpos : i + 1 ≤ whole := hw ▸ src.le_runEnd ..
      have hwhole : k < whole → src.isTerminator k = false := fun hlt => by
        refine not_isTerminator (not_period_of_isDigit ?_)
        rcases Nat.eq_or_lt_of_le hik with rfl | hlt'
        · exact hdigit.1
        · exact holds_of_lt_runEnd hlt' (hw ▸ hlt)
      rw [fractionEnd] at hk
      split at hk
      · next hpoint =>
        rw [Bool.and_eq_true] at hpoint
        rcases Nat.lt_trichotomy k whole with hlt | rfl | hgt
        · exact hwhole hlt
        · rw [isTerminator, hlast, hpoint.2, show Nat.blt 0 k = true by simp; omega]
          exact Bool.and_false _
        · exact not_isTerminator (not_period_of_isDigit (holds_of_lt_runEnd hgt hk))
      · exact hwhole hk
    · simp at h
  · simp at h

/-- A receiver starts with a significant byte, and no period in it ends a statement. -/
theorem receiver_chars {r : Receiver} {stop : Nat} (h : src.receiverAt? i l = some (r, stop)) :
    src.isSignificant i = true ∧ ∀ k, i ≤ k → k < stop → src.isTerminator k = false := by
  unfold receiverAt? at h
  split at h
  · next word hw =>
    split at h
    · simp at h
    · obtain ⟨-, rfl⟩ := Prod.mk.inj (Option.some.inj h)
      have hchars := fun k hik hk => isWordChar_of_wordAt? hw (k := k) hik hk
      refine ⟨isSignificant_of_isWordChar (hchars i (Nat.le_refl _) (src.wordAt?_bounds hw).2), ?_⟩
      exact fun k hik hk => not_isTerminator (codeAt_of_isWordChar (by decide) (hchars k hik hk))
  · split at h
    · next number hn =>
      obtain ⟨-, rfl⟩ := Prod.mk.inj (Option.some.inj h)
      exact ⟨isSignificant_of_isCode (isCode_of_numberAt? hn)
        (not_isGap_of_isIdent (isIdent_of_isDigit (isDigit_of_numberAt?_start hn))).1,
        fun k => number_chars hn⟩
    · split at h
      · next hcloser =>
        obtain ⟨-, rfl⟩ := Prod.mk.inj (Option.some.inj h)
        rw [isCloser, Bool.or_eq_true, Bool.or_eq_true] at hcloser
        have hclosed : src.isSignificant i = true ∧ src.codeAt i '.' = false := by
          rcases hcloser with (hc | hc) | hc
          · exact ⟨isSignificant_of_codeAt (by decide) hc, codeAt_ne (by decide) hc⟩
          · exact ⟨isSignificant_of_codeAt (by decide) hc, codeAt_ne (by decide) hc⟩
          · exact ⟨isSignificant_of_codeAt (by decide) hc, codeAt_ne (by decide) hc⟩
        refine ⟨hclosed.1, fun k hik hk => ?_⟩
        obtain rfl : k = i := by omega
        exact not_isTerminator hclosed.2
      · simp at h

theorem receiverAt?_stop_le {r : Receiver} {stop : Nat} (h : src.receiverAt? i l = some (r, stop))
    (hlt : i < l) : stop ≤ l := by
  unfold receiverAt? at h
  split at h
  · next word hw =>
    split at h
    · simp at h
    · obtain ⟨-, rfl⟩ := Prod.mk.inj (Option.some.inj h)
      exact wordAt?_stop_le hw
  · split at h
    · next number hn =>
      obtain ⟨-, rfl⟩ := Prod.mk.inj (Option.some.inj h)
      rw [numberAt?_eq] at hn
      split at hn
      · split at hn
        · obtain rfl := Option.some.inj hn
          exact fractionEnd_le (runEnd_le hlt)
        · simp at hn
      · simp at hn
    · split at h
      · obtain ⟨-, rfl⟩ := Prod.mk.inj (Option.some.inj h)
        exact hlt
      · simp at h

theorem sendAfter?_bounds {r : Receiver} {send : Send} (h : src.sendAfter? r i l = some send) :
    send.span.start = src.skipGap i l ∧ send.span.start < send.span.stop ∧ send.span.stop ≤ l := by
  refine ⟨start_of_sendAfter? h, ?_⟩
  simp only [sendAfter?] at h
  split at h
  · next word hw =>
    split at h
    · simp at h
    · obtain rfl := Option.some.inj h
      have hbounds := src.wordAt?_bounds hw
      exact ⟨by simp only; omega, wordAt?_stop_le hw⟩
  · obtain ⟨token, htoken, rfl⟩ := Option.map_eq_some_iff.1 h
    refine ⟨(binary_chars htoken).1, ?_⟩
    simp only [binaryAt?] at htoken
    split at htoken
    · next hlt =>
      obtain rfl := Option.some.inj htoken
      rw [Bool.and_eq_true, decide_eq_true_eq] at hlt
      refine runEnd_le (Nat.le_of_not_lt fun hgt => ?_)
      rw [runEnd_of_le (Nat.le_of_lt hgt)] at hlt
      omega
    · simp at htoken

/-- Cascades are looked for at one offset after the other. -/
theorem cascadeSendsAt_split (src : Source) (l : Nat) (n : Nesting) (is js : List Nat) :
    src.cascadeSendsAt l n (is ++ js) =
      src.cascadeSendsAt l n is ++ src.cascadeSendsAt l (is.foldl src.nest n) js := by
  induction is generalizing n with
  | nil => rfl
  | cons i is ih =>
    simp only [List.cons_append, cascadeSendsAt, ih, List.foldl_cons]
    split
    · rw [List.append_assoc]
    · rfl

/-! ## Keyword runs -/

/-- A run starts with its first keyword. -/
theorem keywordRun_span_bounds {region : SendRegion} {first : Span}
    (h : src.keywordAt? first.start region.span.stop = some first) :
    (src.keywordRun region first).span.start = first.start ∧
      first.start < (src.keywordRun region first).span.stop := by
  obtain ⟨last, hspan, hlast, hcases⟩ := keywordRun_span h
  have hbounds := src.keywordAt?_bounds h
  have hbounds' := src.keywordAt?_bounds hlast
  rw [hspan]
  refine ⟨rfl, ?_⟩
  rcases hcases with rfl | hmem
  · exact hbounds.2
  · have := (mem_levelTail hmem).1
    simp only
    omega

theorem isLetter_of_keywordAt? {token : Span} (h : src.keywordAt? i l = some token) :
    src.holds Cell.isLetter i = true := by
  obtain ⟨word, hw, -⟩ := keywordAt?_eq_some h
  exact (wordAt?_eq_some hw).2.1

end Source

namespace Excerpt

variable {w s : Source} (E : Excerpt w s) {i j k : Nat} {m : Nesting} {token : Span}

/-! ## Keywords -/

theorem endsRun_shift (hk : k < w.size) : s.endsRun (E.offset + k) = w.endsRun k := by
  rw [Source.endsRun, Source.endsRun, E.codeAt_shift (by decide) (by decide) (Nat.le_of_lt hk),
    E.codeAt_shift (by decide) (by decide) (Nat.le_of_lt hk), E.isTerminator_shift hk]

/-- The period after the statement ends every run in it. -/
theorem levelTail_end {outer : Nesting} (hopen : w.nestFrom .empty 0 w.size = outer.add m) :
    s.levelTail m (E.offset + w.size) s.size = [] := by
  rw [List.eq_nil_iff_forall_not_mem]
  intro token htoken
  obtain ⟨hle, hkeyword⟩ := Source.mem_levelTail htoken
  have hletter := Source.isLetter_of_keywordAt? hkeyword
  have hlt := Source.lt_size_of_holds hletter
  rcases Nat.lt_or_ge E.right token.start with hright | hright
  · have hclosed := E.nestFrom_size (by omega)
    have hnot := Source.not_endsStatement_of_mem_levelTail outer htoken E.le_right hright
    obtain ⟨hterm, -, -⟩ := E.closing (by omega)
    rw [← hopen, hclosed, Source.endsStatement, Source.nestFrom_of_period E.le_right hterm
      E.after.nestFrom, hterm] at hnot
    exact absurd hnot (by decide)
  · have hpause := E.isPause_of_le hle hright hlt
    rw [Source.holds_eq_of (fun _ => Cell.isLetter_of_isPause) hpause] at hletter
    simp at hletter

theorem levelTail_shift {outer : Nesting} (hk : k ≤ w.size)
    (hopen : w.nestFrom .empty 0 k = outer.add m) :
    s.levelTail m (E.offset + k) s.size = (w.levelTail m k w.size).map (Span.shift E.offset) := by
  have hsize := E.size_le
  induction hd : w.size - k generalizing k m with
  | zero =>
    obtain rfl : k = w.size := by omega
    rw [E.levelTail_end hopen, Source.levelTail_of_le (Nat.le_refl _)]
    rfl
  | succ d ih =>
    have hlt : k < w.size := by omega
    have hnext : w.nestFrom .empty 0 (k + 1) = w.nest (outer.add m) k := by
      rw [Source.nestFrom_succ (Nat.zero_le _), hopen]
    rw [Source.levelTail_eq (i := E.offset + k) (by omega), Source.levelTail_eq hlt,
      E.codeByte?_shift hlt, E.endsRun_shift hlt, E.keywordAt?_shift (Nat.le_of_lt hlt)]
    cases hb : w.codeByte? k with
    | none =>
      rw [Source.nest_add (.inl ⟨hb, rfl⟩)] at hnext
      exact ih (by omega) hnext (by omega)
    | some b =>
      simp only
      split
      · rfl
      · cases hstep : m.step? b with
        | none => rfl
        | some m' =>
          rw [Source.nest_add (.inr ⟨b, hb, hstep⟩)] at hnext
          have hrest : s.levelTail m' (E.offset + k + 1) s.size =
              (w.levelTail m' (k + 1) w.size).map (Span.shift E.offset) :=
            ih (k := k + 1) (by omega) hnext (by omega)
          simp only [hrest, List.map_append]
          congr 1
          split
          · cases w.keywordAt? k w.size <;> rfl
          · rfl

theorem slice_keyword (h : w.keywordAt? k w.size = some token) :
    s.slice (token.shift E.offset) = w.slice token := by
  have hbounds := w.keywordAt?_bounds h
  obtain ⟨word, hw, hlt, -, rfl⟩ := Source.keywordAt?_eq_some h
  refine E.slice_shift (by omega) hlt fun j hstart hstop => ?_
  rcases Source.keywordAt?_chars h hstart hstop with hchar | hcolon
  · exact Source.holds_of_imp (fun _ hc => Cell.isAscii_of_isIdent (Cell.isIdent_of_isWordChar hc))
      hchar
  · refine Source.holds_of_imp (fun c hc => ?_) hcolon
    rw [Cell.isCodeChar, Bool.and_eq_true, beq_iff_eq] at hc
    rw [Cell.isAscii, hc.2]
    decide

/-! ### Receivers of keyword sends -/

/-- Reading backwards, what ends before the statement ends at its start. -/
theorem runStart_shift {p : Cell → Bool} (hp : E.floor < E.offset → s.holds p (E.offset - 1) = false)
    (hk : k ≤ w.size) : s.runStart p (E.offset + k) E.floor = E.offset + w.runStart p k 0 := by
  have hle := Nat.le_trans E.floor_le E.left_le
  induction k with
  | zero =>
    rw [Source.runStart_of_le (i := 0) (Nat.le_refl _), Nat.add_zero]
    rcases Nat.eq_or_lt_of_le hle with heq | hlt
    · exact Source.runStart_of_le (Nat.le_of_eq heq.symm)
    · exact Source.runStart_of_not_holds (hp hlt)
  | succ k ih =>
    have hcell := E.holds_shift (p := p) (k := k) (by omega)
    cases hh : w.holds p k with
    | false =>
      rw [Source.runStart_of_not_holds (i := k + 1) hh, Source.runStart_of_not_holds (hcell.trans hh)]
    | true =>
      rw [Source.runStart_of_holds (i := k + 1) (Nat.succ_pos k) hh,
        Source.runStart_of_holds (by omega) (hcell.trans hh)]
      exact ih (by omega)

/-- White space in the statement is preceded by the start of the statement. -/
theorem skipGapBack_shift (hpos : 0 < k) (hk : k ≤ w.size) :
    s.skipGapBack (E.offset + k) E.floor = E.offset + w.skipGapBack k 0 ∧ 0 < w.skipGapBack k 0 := by
  have hle := Nat.le_trans E.floor_le E.left_le
  have hfirst : w.holds Cell.isGap 0 = false := Source.holds_eq_of (fun c hc => by
    simp only [Cell.isSignificant] at hc
    cases hkind : c.kind <;> simp_all [Cell.isGap, Cell.isCode]) E.first
  simp only [Source.skipGapBack]
  induction k with
  | zero => omega
  | succ k ih =>
    have hcell := E.holds_shift (p := Cell.isGap) (k := k) (by omega)
    cases hh : w.holds Cell.isGap k with
    | false =>
      rw [Source.runStart_of_not_holds (i := k + 1) hh, Source.runStart_of_not_holds (hcell.trans hh)]
      exact ⟨rfl, hpos⟩
    | true =>
      have hpos' : 0 < k := Nat.pos_of_ne_zero fun hzero => by
        rw [hzero, hfirst] at hh
        simp at hh
      rw [Source.runStart_of_holds (i := k + 1) (Nat.succ_pos k) hh,
        Source.runStart_of_holds (by omega) (hcell.trans hh)]
      exact ih hpos' (by omega)

/-- The statement starts with no receiver in front of it. -/
theorem keywordReceiver_start : s.keywordReceiver E.offset E.floor = .unknown := by
  generalize hbefore : s.skipGapBack E.offset E.floor = before
  have hle : before ≤ E.offset := hbefore ▸ s.runStart_le ..
  simp only [Source.keywordReceiver, hbefore]
  split
  · rfl
  · next hnot =>
    simp only [Bool.or_eq_true, decide_eq_true_eq, Bool.not_eq_true', not_or,
      Bool.not_eq_false] at hnot
    -- The code before the white space is the period in front of the statement.
    rw [Source.skipGapBack] at hbefore
    have hfloor : E.floor < before := by
      have hle' : E.floor ≤ s.runStart Cell.isGap E.offset E.floor :=
        Source.le_runStart (Nat.le_trans E.floor_le E.left_le)
      omega
    have hgap : s.holds Cell.isGap (before - 1) = false :=
      hbefore ▸ Source.not_holds_runStart (hbefore ▸ hfloor)
    have hsignificant := Source.isSignificant_of_isCode hnot.2 hgap
    have hlt := E.lt_left_of_isSignificant hsignificant (by omega)
    have hterm := (E.opening (by omega)).1
    rw [Source.isTerminator, Bool.and_eq_true] at hterm
    have hleft : before = E.left := by
      refine Nat.le_antisymm (by omega) (Nat.le_of_not_lt fun hlt' => ?_)
      have hrun : s.holds Cell.isGap (E.left - 1) = true := Source.holds_of_runStart_le
        (hbefore ▸ (by omega : before ≤ E.left - 1)) (by have := E.left_le; omega)
      rw [Source.not_isGap_of_codeAt (by decide) hterm.1] at hrun
      simp at hrun
    have hident : s.holds (fun c => Byte.isIdent c.byte) (before - 1) = false := by
      rw [hleft]
      refine Source.holds_eq_of (fun c hc => ?_) hterm.1
      rw [Cell.isCodeChar, Bool.and_eq_true, beq_iff_eq] at hc
      rw [hc.2]
      decide
    have hsemi : s.codeAt (before - 1) ';' = false := by
      rw [hleft]
      exact Source.codeAt_ne (by decide) hterm.1
    rw [hsemi, Source.runStart_of_not_holds hident]
    simp

theorem keywordReceiver_shift (hk : k < w.size) :
    s.keywordReceiver (E.offset + k) E.floor = w.keywordReceiver k 0 := by
  have hle := Nat.le_trans E.floor_le E.left_le
  rcases Nat.eq_zero_or_pos k with rfl | hpos
  · rw [Nat.add_zero, E.keywordReceiver_start, Source.keywordReceiver, Source.skipGapBack,
      Source.runStart_of_le (Nat.le_refl _)]
    rfl
  · obtain ⟨hgap, hgt⟩ := E.skipGapBack_shift hpos (Nat.le_of_lt hk)
    have hle' : w.skipGapBack k 0 ≤ k := w.runStart_le ..
    generalize hb : w.skipGapBack k 0 = before at hgap hgt hle'
    have hident := E.runStart_shift (p := fun c => Byte.isIdent c.byte) (k := before)
      (fun hlt => E.byteIs_before (fun b hb => by rw [hb]; rfl) (by omega)) (by omega)
    generalize hst : w.runStart (fun c => Byte.isIdent c.byte) before 0 = start at hident
    have hstart : start ≤ before := hst ▸ w.runStart_le ..
    have hcode : s.isCode (E.offset + before - 1) = w.isCode (before - 1) := by
      rw [show E.offset + before - 1 = E.offset + (before - 1) by omega]
      exact E.holds_shift (by omega)
    have hsemi : s.codeAt (E.offset + before - 1) ';' = w.codeAt (before - 1) ';' := by
      rw [show E.offset + before - 1 = E.offset + (before - 1) by omega]
      exact E.holds_shift (by omega)
    have hslice : s.slice ⟨E.offset + start, E.offset + before⟩ = w.slice ⟨start, before⟩ := by
      change s.slice (Span.shift E.offset ⟨start, before⟩) = _
      refine E.slice_shift hstart (by simp only; omega) fun j hj hj' => ?_
      exact Source.holds_of_imp (fun _ => Cell.isAscii_of_isIdent)
        (Source.holds_of_runStart_le (hst ▸ hj) hj')
    simp only [Source.keywordReceiver, hgap, hb, hident, hst, hcode, hsemi, hslice,
      E.isWordStart_shift (show start ≤ w.size by omega)]
    have hne : decide (E.offset + before = E.floor) = decide (before = 0) := by
      rw [decide_eq_false (by omega), decide_eq_false (by omega)]
    have heq : decide (E.offset + start = E.offset + before) = decide (start = before) :=
      decide_eq_decide.2 Nat.add_left_cancel_iff
    rw [hne, heq]

/-! ### Runs -/

theorem keywordRun_shift (h : w.keywordAt? token.start w.size = some token) :
    s.keywordRun (s.regionFrom E.floor) (token.shift E.offset) =
      (w.keywordRun (w.regionFrom 0) token).shift E.offset := by
  have hbounds := w.keywordAt?_bounds h
  have hstop : token.stop ≤ w.size := by
    obtain ⟨word, -, hlt, -, heq⟩ := Source.keywordAt?_eq_some h
    rw [heq]
    exact hlt
  have hrest : s.runTail .empty (E.offset + token.stop) s.size =
      (w.runTail .empty token.stop w.size).map (Span.shift E.offset) := by
    rw [Source.runTail_eq_levelTail, Source.runTail_eq_levelTail]
    exact E.levelTail_shift hstop (Nesting.add_empty _).symm
  have hslices : ((token :: w.runTail .empty token.stop w.size).map (Span.shift E.offset)).map s.slice =
      (token :: w.runTail .empty token.stop w.size).map w.slice := by
    rw [List.map_map]
    refine List.map_congr_left fun t ht => ?_
    rcases List.mem_cons.1 ht with rfl | ht
    · exact E.slice_keyword h
    · rw [Source.runTail_eq_levelTail] at ht
      exact E.slice_keyword (Source.mem_levelTail ht).2
  simp only [Source.keywordRun, KeywordRun.shift, Source.regionFrom]
  have hreceiver : s.keywordReceiver (token.shift E.offset).start E.floor =
      w.keywordReceiver token.start 0 := E.keywordReceiver_shift (by omega)
  rw [hreceiver]
  have hrest' : s.runTail .empty (token.shift E.offset).stop s.size =
      (w.runTail .empty token.stop w.size).map (Span.shift E.offset) := hrest
  rw [hrest', ← List.map_cons, hslices]

theorem stop_le_of_mem_tokens {region : SendRegion} {first : Span}
    (hfirst : w.keywordAt? first.start region.span.stop = some first)
    (h : token ∈ (w.keywordRun region first).tokens) :
    token.start < token.stop ∧ token.stop ≤ region.span.stop := by
  obtain ⟨-, hkeyword⟩ := Source.mem_keywordRun_tokens hfirst h
  obtain ⟨word, -, hlt, -, heq⟩ := Source.keywordAt?_eq_some hkeyword
  exact ⟨(w.keywordAt?_bounds hkeyword).2, heq ▸ hlt⟩

/-- The runs that start in the statement. -/
theorem runsOf_shift {tokens : List Span}
    (htokens : ∀ t ∈ tokens, w.keywordAt? t.start w.size = some t) {taken taken' : List Nat}
    (htaken : ∀ k, E.offset + k ∈ taken ↔ k ∈ taken') (rest : List Span) :
    ∃ later, s.runsOf (s.regionFrom E.floor) taken (tokens.map (Span.shift E.offset) ++ rest) =
      (w.runsOf (w.regionFrom 0) taken' tokens).map (KeywordRun.shift E.offset) ++
        s.runsOf (s.regionFrom E.floor) later rest := by
  induction tokens generalizing taken taken' with
  | nil => exact ⟨taken, rfl⟩
  | cons first tokens ih =>
    rw [List.forall_mem_cons] at htokens
    obtain ⟨hfirst, htokens⟩ := htokens
    have hadmits : ∀ t ∈ (w.keywordRun (w.regionFrom 0) first).tokens,
        (s.regionFrom E.floor).admits (t.shift E.offset) = (w.regionFrom 0).admits t := fun t ht => by
      obtain ⟨hlt, hle⟩ := stop_le_of_mem_tokens hfirst ht
      exact E.admits_shift hlt hle
    have hcontains : taken.contains (first.shift E.offset).start = taken'.contains first.start := by
      rw [Bool.eq_iff_iff, List.contains_iff_mem, List.contains_iff_mem]
      exact htaken first.start
    have hadmits' := hadmits first (List.mem_cons_self ..)
    simp only [List.map_cons, List.cons_append, Source.runsOf, hcontains, hadmits',
      E.keywordRun_shift hfirst]
    split
    · exact ih htokens htaken
    · have htaken' : ∀ k, E.offset + k ∈
            ((w.keywordRun (w.regionFrom 0) first).shift E.offset).tokens.map (·.start) ++ taken ↔
          k ∈ (w.keywordRun (w.regionFrom 0) first).tokens.map (·.start) ++ taken' := by
        intro k
        rw [List.mem_append, List.mem_append, htaken, KeywordRun.tokens_shift, List.map_map]
        simp [Span.shift]
      obtain ⟨later, hrest⟩ := ih htokens htaken'
      have hall : ((w.keywordRun (w.regionFrom 0) first).shift E.offset).tokens.all
          (s.regionFrom E.floor).admits =
          (w.keywordRun (w.regionFrom 0) first).tokens.all (w.regionFrom 0).admits := by
        rw [KeywordRun.tokens_shift, List.all_map, Bool.eq_iff_iff, List.all_eq_true,
          List.all_eq_true]
        exact forall₂_congr fun t ht => by rw [Function.comp_apply, hadmits t ht]
      refine ⟨later, ?_⟩
      rw [hrest, hall]
      split <;> rfl

/-- A run that starts before the statement ends before it. -/
theorem start_lt_of_mem_tokens {first : Span} (hfirst : s.keywordAt? first.start s.size = some first)
    (hfloor : E.floor ≤ first.start) (hlt : first.start < E.offset)
    (h : token ∈ (s.keywordRun (s.regionFrom E.floor) first).tokens) : token.start < E.offset := by
  rcases List.mem_cons.1 h with heq | h
  · rw [heq]
    exact hlt
  · have hmem : token ∈ s.runTail .empty first.stop s.size := h
    rw [Source.runTail_eq_levelTail] at hmem
    have hbounds := s.keywordAt?_bounds hfirst
    have hleft := E.left_le
    have hlt' := E.lt_left_of_isSignificant
      (Source.keyword_chars hfirst (Nat.le_refl _) hbounds.2).1 hlt
    obtain ⟨hterm, hopen⟩ := E.opening (by omega)
    have hstop : first.stop ≤ E.left - 1 := Nat.le_of_not_lt fun hgt => by
      have hperiod := (Source.keyword_chars hfirst (k := E.left - 1) (by omega) hgt).2
      rw [Source.isTerminator, hperiod] at hterm
      simp at hterm
    refine Nat.lt_of_not_le fun hge => ?_
    have hnot := Source.not_endsStatement_of_mem_levelTail (s.nestFrom .empty E.floor first.stop)
      hmem hstop (by omega)
    rw [Nesting.add_empty, ← Source.endsStatement_trans (by omega) hstop, Source.endsStatement,
      Nat.sub_add_cancel (by omega), hopen, hterm] at hnot
    exact absurd hnot (by decide)

/-- The runs that start before the statement take no keyword of it. -/
theorem runsOf_left {tokens : List Span}
    (htokens : ∀ t ∈ tokens, s.keywordAt? t.start s.size = some t ∧ E.floor ≤ t.start ∧
      t.start < E.offset) {taken : List Nat} (htaken : ∀ i ∈ taken, i < E.offset) (rest : List Span) :
    ∃ runs later, s.runsOf (s.regionFrom E.floor) taken (tokens ++ rest) =
        runs ++ s.runsOf (s.regionFrom E.floor) later rest ∧
      (∀ run ∈ runs, ∃ first ∈ tokens, run = s.keywordRun (s.regionFrom E.floor) first) ∧
      ∀ i ∈ later, i < E.offset := by
  induction tokens generalizing taken with
  | nil => exact ⟨[], taken, rfl, by simp, htaken⟩
  | cons first tokens ih =>
    rw [List.forall_mem_cons] at htokens
    obtain ⟨⟨hfirst, hfloor, hlt⟩, htokens⟩ := htokens
    simp only [List.cons_append, Source.runsOf]
    have hlater : ∀ {runs : List KeywordRun},
        (∀ run ∈ runs, ∃ f ∈ tokens, run = s.keywordRun (s.regionFrom E.floor) f) →
        ∀ run ∈ runs, ∃ f ∈ first :: tokens, run = s.keywordRun (s.regionFrom E.floor) f :=
      fun hruns run hrun => by
        obtain ⟨f, hf, heq⟩ := hruns run hrun
        exact ⟨f, List.mem_cons_of_mem _ hf, heq⟩
    split
    · obtain ⟨runs, later, hrest, hruns, hlt'⟩ := ih htokens htaken
      exact ⟨runs, later, hrest, hlater hruns, hlt'⟩
    · have htaken' : ∀ i ∈ (s.keywordRun (s.regionFrom E.floor) first).tokens.map (·.start) ++ taken,
          i < E.offset := by
        intro i hi
        rcases List.mem_append.1 hi with hi | hi
        · obtain ⟨t, ht, rfl⟩ := List.mem_map.1 hi
          exact E.start_lt_of_mem_tokens hfirst hfloor hlt ht
        · exact htaken i hi
      obtain ⟨runs, later, hrest, hruns, hlt'⟩ := ih htokens htaken'
      rw [hrest]
      split
      · refine ⟨_ :: runs, later, rfl, List.forall_mem_cons.2 ⟨?_, hlater hruns⟩, hlt'⟩
        exact ⟨first, List.mem_cons_self .., rfl⟩
      · exact ⟨runs, later, rfl, hlater hruns, hlt'⟩

theorem keywords_split : s.keywords ⟨E.floor, s.size⟩ =
    (Span.offsets ⟨E.floor, E.offset⟩).filterMap (s.keywordAt? · s.size) ++
      ((w.keywords ⟨0, w.size⟩).map (Span.shift E.offset) ++
        (Span.offsets ⟨E.offset + w.size, s.size⟩).filterMap (s.keywordAt? · s.size)) := by
  rw [Source.keywords, E.offsets_split, List.filterMap_append, List.filterMap_append,
    E.filterMap_offsets fun k hk => E.keywordAt?_shift (Nat.le_of_lt hk)]
  rfl

/-- The runs before the statement, in it and after it. -/
theorem keywordRuns_split :
    ∃ before after : List KeywordRun, s.keywordRuns (s.regionFrom E.floor) =
        before ++ ((w.keywordRuns (w.regionFrom 0)).map (KeywordRun.shift E.offset) ++ after) ∧
      (∀ run ∈ before, run.span.start < E.offset) ∧
      ∀ run ∈ after, E.offset + w.size ≤ run.span.start ∧ run.span.start < run.span.stop := by
  have hfound : ∀ {i l : Nat} {t : Span},
      t ∈ (Span.offsets ⟨i, l⟩).filterMap (s.keywordAt? · s.size) →
      s.keywordAt? t.start s.size = some t ∧ i ≤ t.start ∧ t.start < l := fun ht => by
    obtain ⟨i, hi, hat⟩ := List.mem_filterMap.1 ht
    rw [(s.keywordAt?_bounds hat).1]
    exact ⟨hat, Span.mem_offsets.1 hi⟩
  have hspan : ∀ {first : Span}, s.keywordAt? first.start s.size = some first →
      (s.keywordRun (s.regionFrom E.floor) first).span.start = first.start ∧
        first.start < (s.keywordRun (s.regionFrom E.floor) first).span.stop :=
    fun hfirst => Source.keywordRun_span_bounds hfirst
  obtain ⟨runs, taken, hruns, hbefore, htaken⟩ := E.runsOf_left (fun t ht => hfound ht)
    (show ∀ i ∈ ([] : List Nat), i < E.offset by simp)
    ((w.keywords ⟨0, w.size⟩).map (Span.shift E.offset) ++
      (Span.offsets ⟨E.offset + w.size, s.size⟩).filterMap (s.keywordAt? · s.size))
  have hfresh : ∀ k, E.offset + k ∈ taken ↔ k ∈ ([] : List Nat) := fun k => by
    simp only [List.not_mem_nil, iff_false]
    exact fun hmem => absurd (htaken _ hmem) (Nat.not_lt_of_le (Nat.le_add_right ..))
  have hmid : ∀ t ∈ w.keywords ⟨0, w.size⟩, w.keywordAt? t.start w.size = some t :=
    fun t ht => (Source.keywordAt?_of_mem_keywords ht).2
  obtain ⟨later, hrest⟩ := E.runsOf_shift hmid hfresh
    ((Span.offsets ⟨E.offset + w.size, s.size⟩).filterMap (s.keywordAt? · s.size))
  rw [hrest] at hruns
  rw [Source.keywordRuns, Source.regionFrom, E.keywords_split]
  refine ⟨runs, _, hruns, fun run hrun => ?_, fun run hrun => ?_⟩
  · obtain ⟨first, hmem, rfl⟩ := hbefore run hrun
    obtain ⟨hfirst, -, hlt⟩ := hfound hmem
    exact (hspan hfirst).1 ▸ hlt
  · obtain ⟨first, hmem, rfl, -, -⟩ := Source.mem_runsOf hrun
    obtain ⟨hfirst, hle, -⟩ := hfound hmem
    obtain ⟨hstart, hlt⟩ := hspan hfirst
    exact ⟨hstart ▸ hle, hstart ▸ hlt⟩

/-- The part of the sends that lies in the statement. -/
def within (sends : List Send) : List Send :=
  sends.filter fun send => (Span.mk E.offset (E.offset + w.size)).contains send.span

theorem within_append (a b : List Send) : E.within (a ++ b) = E.within a ++ E.within b :=
  List.filter_append ..

/-- Of sends before the statement, in it and after it, those in it. -/
theorem within_split {before sends after : List Send}
    (hbefore : ∀ send ∈ before, send.span.start < E.offset)
    (hsends : ∀ send ∈ sends, send.span.stop ≤ w.size)
    (hafter : ∀ send ∈ after,
      E.offset + w.size ≤ send.span.start ∧ send.span.start < send.span.stop) :
    E.within (before ++ (sends.map (Send.shift E.offset) ++ after)) =
      sends.map (Send.shift E.offset) := by
  have hnone : E.within before = [] := by
    rw [within, List.filter_eq_nil_iff]
    intro send hsend hcontains
    exact absurd (Span.contains_iff.1 hcontains).1 (Nat.not_le_of_lt (hbefore send hsend))
  have hall : E.within (sends.map (Send.shift E.offset)) = sends.map (Send.shift E.offset) := by
    rw [within, List.filter_eq_self]
    intro send hsend
    obtain ⟨send', hsend', rfl⟩ := List.mem_map.1 hsend
    exact Span.contains_iff.2 ⟨Nat.le_add_right .., Nat.add_le_add_left (hsends send' hsend') _⟩
  have hnone' : E.within after = [] := by
    rw [within, List.filter_eq_nil_iff]
    intro send hsend hcontains
    obtain ⟨hle, hlt⟩ := hafter send hsend
    exact absurd (Span.contains_iff.1 hcontains).2 (Nat.not_le_of_lt (Nat.lt_of_le_of_lt hle hlt))
  rw [within_append, within_append, hnone, hall, hnone', List.nil_append, List.append_nil]

theorem keywordSends_shift : E.within (s.keywordSends (s.regionFrom E.floor)) =
    (w.keywordSends (w.regionFrom 0)).map (Send.shift E.offset) := by
  obtain ⟨runs, later, hall, hbefore, hafter⟩ := E.keywordRuns_split
  have hsends : (w.keywordRuns (w.regionFrom 0)).map (KeywordRun.toSend ∘ KeywordRun.shift E.offset) =
      ((w.keywordRuns (w.regionFrom 0)).map KeywordRun.toSend).map (Send.shift E.offset) := by
    rw [List.map_map]
    exact List.map_congr_left fun run _ => run.toSend_shift E.offset
  rw [Source.keywordSends_eq, Source.keywordSends_eq, hall, List.map_append, List.map_append,
    List.map_map, hsends]
  refine E.within_split (List.forall_mem_map.2 hbefore) (List.forall_mem_map.2 fun run hrun => ?_)
    (List.forall_mem_map.2 hafter)
  exact (Span.contains_iff.1 (Source.contains_run_span hrun)).2

/-! ## Unary and binary sends -/

/-- What is sent to a receiver before the statement stands before the statement. -/
theorem start_lt_of_sendAfter? {r : Receiver} {send : Send} (hleft : E.floor < E.left)
    (hi : i < E.left) (h : s.sendAfter? r i s.size = some send) : send.span.start < E.offset := by
  have hterm := (E.opening hleft).1
  rw [Source.isTerminator, Bool.and_eq_true] at hterm
  have hle : s.skipGap i s.size ≤ E.left - 1 := Source.runEnd_le_of_not_holds (by omega)
    (Source.not_isGap_of_codeAt (by decide) hterm.1)
  have := E.left_le
  rw [(Source.sendAfter?_bounds h).1]
  omega

/-- The sends to receivers before the statement. -/
theorem receiverSendsFrom_left (hfloor : E.floor ≤ i) (hi : i ≤ E.offset) :
    ∃ sends, s.receiverSendsFrom i s.size = sends ++ s.receiverSendsFrom E.offset s.size ∧
      ∀ send ∈ sends, send.span.start < E.offset := by
  have hsize := E.size_le
  have hleft := E.left_le
  induction hd : E.offset - i using Nat.strongRecOn generalizing i with
  | ind d ih =>
    rcases Nat.eq_or_lt_of_le hi with rfl | hlt
    · exact ⟨[], rfl, by simp⟩
    · cases hr : s.receiverAt? i s.size with
      | none =>
        rw [Source.receiverSendsFrom_of_none hr]
        exact ih (E.offset - (i + 1)) (by omega) (by omega) hlt rfl
      | some found =>
        obtain ⟨r, stop⟩ := found
        have hgt := s.receiverAt?_lt hr
        obtain ⟨hsignificant, hchars⟩ := Source.receiver_chars hr
        have hlt' := E.lt_left_of_isSignificant hsignificant hlt
        have hstop : stop < E.left := Nat.lt_of_not_le fun hge => by
          have hterm := (E.opening (by omega)).1
          rw [hchars _ (by omega) (by omega)] at hterm
          simp at hterm
        obtain ⟨sends, hrest, hstarts⟩ := ih (E.offset - stop) (by omega) (by omega) (by omega) rfl
        rw [Source.receiverSendsFrom_of_some (by omega) hr, hrest, ← List.append_assoc]
        refine ⟨_, rfl, List.forall_mem_append.2 ⟨fun send hsend => ?_, hstarts⟩⟩
        exact E.start_lt_of_sendAfter? (by omega) hstop (Option.mem_toList.1 hsend)

theorem receiverSendsFrom_shift (hk : k ≤ w.size) :
    s.receiverSendsFrom (E.offset + k) s.size =
      (w.receiverSendsFrom k w.size).map (Send.shift E.offset) ++
        s.receiverSendsFrom (E.offset + w.size) s.size := by
  have hsize := E.size_le
  induction hd : w.size - k using Nat.strongRecOn generalizing k with
  | ind d ih =>
    rcases Nat.eq_or_lt_of_le hk with rfl | hlt
    · rw [Source.receiverSendsFrom_of_le (i := w.size) (Nat.le_refl _)]
      rfl
    · have hfound := E.receiverAt?_shift hk
      cases hr : w.receiverAt? k w.size with
      | none =>
        rw [hr] at hfound
        rw [Source.receiverSendsFrom_of_none hr, Source.receiverSendsFrom_of_none hfound]
        exact ih (w.size - (k + 1)) (by omega) (k := k + 1) (by omega) rfl
      | some found =>
        obtain ⟨r, stop⟩ := found
        rw [hr] at hfound
        have hgt := w.receiverAt?_lt hr
        have hstop := Source.receiverAt?_stop_le hr hlt
        rw [Source.receiverSendsFrom_of_some hlt hr,
          Source.receiverSendsFrom_of_some (by omega) hfound, E.sendAfter?_shift r hstop,
          ih (w.size - stop) (by omega) hstop rfl, List.map_append, List.append_assoc]
        cases w.sendAfter? r stop w.size <;> rfl

theorem cascadeSendsAt_shift {is : List Nat} (his : ∀ k ∈ is, k < w.size) :
    s.cascadeSendsAt s.size m (is.map (E.offset + ·)) =
      (w.cascadeSendsAt w.size m is).map (Send.shift E.offset) := by
  induction is generalizing m with
  | nil => rfl
  | cons k is ih =>
    rw [List.forall_mem_cons] at his
    have hsemi := E.codeAt_shift (x := ';') (by decide) (by decide) (Nat.le_of_lt his.1)
    have hsend : s.sendAfter? .cascade (E.offset + k + 1) s.size =
        (w.sendAfter? .cascade (k + 1) w.size).map (Send.shift E.offset) :=
      E.sendAfter?_shift .cascade (Nat.succ_le_of_lt his.1)
    simp only [List.map_cons, Source.cascadeSendsAt, E.nest_shift his.1, hsemi, hsend, ih his.2]
    split
    · rw [List.map_append]
      cases w.sendAfter? .cascade (k + 1) w.size <;> rfl
    · rfl

theorem within_filter {sends : List Send} {p : Send → Bool} :
    E.within (sends.filter p) = (E.within sends).filter p := by
  rw [within, within, List.filter_filter, List.filter_filter]
  simp only [Bool.and_comm]

theorem within_receiverSends : E.within (s.receiverSendsFrom E.floor s.size) =
    (w.receiverSendsFrom 0 w.size).map (Send.shift E.offset) := by
  obtain ⟨sends, hsends, hleft⟩ := E.receiverSendsFrom_left (Nat.le_refl _)
    (Nat.le_trans E.floor_le E.left_le)
  have hmid := E.receiverSendsFrom_shift (Nat.zero_le _)
  rw [Nat.add_zero] at hmid
  rw [hsends, hmid]
  refine E.within_split hleft (fun send hsend => ?_) fun send hsend => ?_
  · obtain ⟨i, r, stop, -, -, hsend⟩ := Source.mem_receiverSendsFrom hsend
    exact (Source.sendAfter?_bounds hsend).2.2
  · obtain ⟨i, r, stop, hi, hr, hsend⟩ := Source.mem_receiverSendsFrom hsend
    have hgt := s.receiverAt?_lt hr
    obtain ⟨hstart, hlt, -⟩ := Source.sendAfter?_bounds hsend
    have := s.le_skipGap stop s.size
    exact ⟨by omega, hlt⟩

theorem within_cascadeSends :
    E.within (s.cascadeSendsAt s.size .empty (Span.offsets ⟨E.floor, s.size⟩)) =
      (w.cascadeSendsAt w.size .empty (Span.offsets ⟨0, w.size⟩)).map (Send.shift E.offset) := by
  have hmid : s.cascadeSendsAt s.size .empty (Span.offsets ⟨E.offset, E.offset + w.size⟩) =
      (w.cascadeSendsAt w.size .empty (Span.offsets ⟨0, w.size⟩)).map (Send.shift E.offset) := by
    have hoffsets := Span.offsets_shift E.offset ⟨0, w.size⟩
    rw [Span.shift, Nat.add_zero] at hoffsets
    rw [hoffsets]
    exact E.cascadeSendsAt_shift fun k hk => (Span.mem_offsets.1 hk).2
  have hopen : (Span.offsets ⟨E.floor, E.offset⟩).foldl s.nest .empty = .empty := E.nestFrom_floor
  rw [E.offsets_split, Source.cascadeSendsAt_split, Source.cascadeSendsAt_split, hopen, hmid]
  refine E.within_split (fun send hsend => ?_) (fun send hsend => ?_) fun send hsend => ?_
  · obtain ⟨i, hi, hsemi, hsend⟩ := Source.mem_cascadeSendsAt hsend
    obtain ⟨hfloor, hlt⟩ : E.floor ≤ i ∧ i < E.offset := Span.mem_offsets.1 hi
    obtain ⟨hlt', -, -⟩ := E.exists_period (by decide) (by decide) hsemi hfloor hlt
    exact E.start_lt_of_sendAfter? (by omega) hlt' hsend
  · obtain ⟨i, -, -, hsend⟩ := Source.mem_cascadeSendsAt hsend
    exact (Source.sendAfter?_bounds hsend).2.2
  · obtain ⟨i, hi, -, hsend⟩ := Source.mem_cascadeSendsAt hsend
    have hi' : E.offset + w.size ≤ i := (Span.mem_offsets.1 hi).1
    obtain ⟨hstart, hlt, -⟩ := Source.sendAfter?_bounds hsend
    have := s.le_skipGap (i + 1) s.size
    exact ⟨by omega, hlt⟩

theorem simpleSends_shift : E.within (s.simpleSends (s.regionFrom E.floor)) =
    (w.simpleSends (w.regionFrom 0)).map (Send.shift E.offset) := by
  have hfilter : ∀ sends : List Send,
      (∀ send ∈ sends, send.span.start < send.span.stop ∧ send.span.stop ≤ w.size) →
      (sends.map (Send.shift E.offset)).filter (fun send => (s.regionFrom E.floor).admits send.span) =
        (sends.filter fun send => (w.regionFrom 0).admits send.span).map (Send.shift E.offset) := by
    intro sends hsends
    rw [List.filter_map]
    refine congrArg _ (List.filter_congr fun send hsend => ?_)
    exact E.admits_shift (hsends send hsend).1 (hsends send hsend).2
  rw [Source.simpleSends, Source.simpleSends, E.within_filter, E.within_append]
  have hreceivers := E.within_receiverSends
  have hcascades := E.within_cascadeSends
  simp only [Source.regionFrom] at hreceivers hcascades ⊢
  rw [hreceivers, hcascades, ← List.map_append]
  refine hfilter _ fun send hsend => ?_
  rcases List.mem_append.1 hsend with hmem | hmem
  · obtain ⟨i, r, stop, -, -, hsend⟩ := Source.mem_receiverSendsFrom hmem
    exact (Source.sendAfter?_bounds hsend).2
  · obtain ⟨i, -, -, hsend⟩ := Source.mem_cascadeSendsAt hmem
    exact (Source.sendAfter?_bounds hsend).2

end Excerpt

/-! ## All sends -/

namespace Source

variable {src : Source}

/-- The sends of a region, in order. -/
def sendsIn (src : Source) (region : SendRegion) : List Send :=
  (src.keywordSends region ++ src.simpleSends region).mergeSort fun a b => a.span.le b.span

/-- A keyword is no unary or binary send. -/
theorem keywordAt?_of_sendAfter? {r : Receiver} {i l : Nat} {send : Send}
    (h : src.sendAfter? r i l = some send) : src.keywordAt? send.span.start l = none := by
  rw [start_of_sendAfter? h]
  cases hk : src.keywordAt? (src.skipGap i l) l with
  | none => rfl
  | some token =>
    obtain ⟨word, hw, -, hcolon, -⟩ := keywordAt?_eq_some hk
    simp [sendAfter?, hw, hcolon] at h

/-- No two sends start at the same byte. -/
theorem send_eq_of_start_eq {a b : Send} (ha : a ∈ src.sends) (hb : b ∈ src.sends)
    (heq : a.span.start = b.span.start) : a = b := by
  have hapart : ∀ {a b : Send}, a ∈ src.keywordSends src.sendRegion →
      b ∈ src.simpleSends src.sendRegion → a.span.start ≠ b.span.start := by
    intro a b ha hb heq
    rw [keywordSends_eq] at ha
    obtain ⟨run, hrun, rfl⟩ := List.mem_map.1 ha
    obtain ⟨first, hfirst, -, rfl, -⟩ := mem_keywordRuns hrun
    obtain ⟨r, j, -, hsend⟩ := mem_simpleSends hb
    have hstart : b.span.start = first.start := heq.symm.trans (keywordRun_span_bounds hfirst).1
    have hnone := keywordAt?_of_sendAfter? hsend
    have hfirst' : src.keywordAt? first.start src.size = some first := hfirst
    rw [hstart, hfirst'] at hnone
    simp at hnone
  rcases mem_sends.1 ha with ha' | ha' <;> rcases mem_sends.1 hb with hb' | hb'
  · rw [keywordSends_eq] at ha' hb'
    obtain ⟨run, hrun, rfl⟩ := List.mem_map.1 ha'
    obtain ⟨run', hrun', rfl⟩ := List.mem_map.1 hb'
    obtain ⟨first, hfirst, -, rfl, -⟩ := mem_keywordRuns hrun
    obtain ⟨first', hfirst', -, rfl, -⟩ := mem_keywordRuns hrun'
    have hstart : first.start = first'.start :=
      (keywordRun_span_bounds hfirst).1.symm.trans (heq.trans (keywordRun_span_bounds hfirst').1)
    exact congrArg _ (eq_of_start_eq hrun hrun' (List.mem_cons_self ..) (List.mem_cons_self ..) hstart)
  · exact absurd heq (hapart ha' hb')
  · exact absurd heq.symm (hapart hb' ha')
  · exact simpleSend_eq_of_start_eq ha' hb' heq

end Source

/-- The sends that a method has in a statement are those of the statement by itself. -/
theorem Excerpt.sends_shift {w s : Source} (E : Excerpt w s)
    (hfloor : s.statementRegion.start = E.floor) :
    s.sends.filter (fun send => (Span.mk E.offset (E.offset + w.size)).contains send.span) =
      (w.sendsIn (w.regionFrom 0)).map (Send.shift E.offset) := by
  have hregion : s.sendRegion = s.regionFrom E.floor := hfloor ▸ s.sendRegion_eq
  have hle : ∀ a b : Send, a.span.le b.span = (a.shift E.offset).span.le (b.shift E.offset).span :=
    fun a b => by
      rw [Bool.eq_iff_iff, Span.le_iff, Span.le_iff]
      simp only [Send.shift, Span.shift]
      omega
  rw [Source.sendsIn, List.map_mergeSort (s := fun a b : Send => a.span.le b.span)
    (fun a _ b _ => hle a b), List.map_append]
  -- Both lists are sorted, and no two sends start at the same byte.
  have hperm : (s.sends.filter fun send =>
      (Span.mk E.offset (E.offset + w.size)).contains send.span).Perm
      (((w.keywordSends (w.regionFrom 0)).map (Send.shift E.offset) ++
        (w.simpleSends (w.regionFrom 0)).map (Send.shift E.offset)).mergeSort
          fun a b => a.span.le b.span) := by
    rw [← E.keywordSends_shift, ← E.simpleSends_shift, ← E.within_append, ← hregion]
    exact ((List.mergeSort_perm ..).filter _).trans (List.mergeSort_perm ..).symm
  refine List.Perm.eq_of_pairwise (fun a b ha hb hab hba => ?_)
    ((Span.pairwise_mergeSort Send.span _).filter _) (Span.pairwise_mergeSort Send.span _) hperm
  rw [Span.le_iff] at hab hba
  exact Source.send_eq_of_start_eq (List.mem_filter.1 ha).1
    (List.mem_filter.1 (hperm.mem_iff.2 hb)).1 (by omega)

end MethodBrowser
