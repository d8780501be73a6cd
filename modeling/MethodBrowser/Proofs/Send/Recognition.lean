import MethodBrowser.Proofs.Send.ExcerptSends

/-!
# How a unary or binary send is recognised

The sends of a method are found by scans that jump from one receiver to the next. This module shows
that the jumps do not matter (`Source.mem_simpleSends_iff`): whether a word or an operator is a send
depends on the token itself, on what ends right before the white space in front of it, and for a
cascade on the groups that are open there.

**Receivers that are jumped over.** No word and no closing bracket stands inside another receiver. A
decimal number may: in `1.5.7` a number starts at the `5` too. It is jumped over only together with the
digits it ends with, and these belong to the number before it, unless a period follows them
(`Source.Figures`). But no send follows a receiver that a period follows.
-/

namespace MethodBrowser.Source

variable {src : Source} {i j k l p : Nat} {sp : Span} {send : Send}

/-! ## The local definition -/

/-- A receiver ends at `p`, after the start of the region or inside it. -/
inductive ReceiverEnds (src : Source) (region : Span) (p : Nat) : Receiver → Prop
  /-- An identifier. -/
  | word {word : Span} : region.start ≤ word.start →
      src.wordAt? word.start region.stop = some word → word.stop = p →
      ReceiverEnds src region p (.ofWord (src.slice word))
  /-- A decimal number. -/
  | number {i : Nat} : src.numberAt? i region.stop = some ⟨i, p⟩ → ReceiverEnds src region p .unknown
  | closer : src.isCloser (p - 1) = true → ReceiverEnds src region p .unknown
  /-- A semicolon where no group of the region is open. -/
  | cascade : src.codeAt (p - 1) ';' = true →
      (src.nestFrom .empty region.start p).isTopLevel = true → ReceiverEnds src region p .cascade

/-- The token at a span that may be a unary or a binary selector. -/
inductive SelectorAt (src : Source) (l : Nat) (sp : Span) : SelectorKind → Prop
  | unary : src.wordAt? sp.start l = some sp → src.codeAt sp.stop ':' = false → SelectorAt src l sp .unary
  | binary : src.binaryAt? sp.start l = some sp → SelectorAt src l sp .binary

/-- A send that is told by its selector and by what stands before the white space in front of it. -/
structure Recognized (src : Source) (region : SendRegion) (send : Send) : Prop where
  token : src.SelectorAt region.span.stop send.span send.kind
  selector : send.selector = src.slice send.span
  tokens : send.tokens = 1
  admitted : region.admits send.span = true
  preceded : region.span.start < src.skipGapBack send.span.start region.span.start
  receiver : src.ReceiverEnds region.span (src.skipGapBack send.span.start region.span.start)
    send.receiver

/-! ## White space -/

theorem runStart_eq {q : Cell → Bool} {floor : Nat} (hfloor : floor ≤ i) (hij : i ≤ j)
    (hall : ∀ k, i ≤ k → k < j → src.holds q k = true)
    (hbefore : floor < i → src.holds q (i - 1) = false) : src.runStart q j floor = i := by
  induction j, hij using Nat.le_induction with
  | base =>
    rcases Nat.eq_or_lt_of_le hfloor with heq | hlt
    · exact runStart_of_le (Nat.le_of_eq heq.symm)
    · exact runStart_of_not_holds (hbefore hlt)
  | succ j hij ih =>
    rw [runStart_of_holds (by omega) (by exact hall j hij (Nat.lt_succ_self j)), Nat.add_sub_cancel]
    exact ih fun k hk hkj => hall k hk (by omega)

theorem runEnd_eq {q : Cell → Bool} (hij : i ≤ j) (hjl : j ≤ l)
    (hall : ∀ k, i ≤ k → k < j → src.holds q k = true) (hstop : src.holds q j = false) :
    src.runEnd q i l = j := by
  have hrun : ∀ k < j - i, src.holds q (i + k) = true := fun k hk =>
    hall (i + k) (by omega) (by omega)
  rw [runEnd_add (by omega) hrun, Nat.add_sub_cancel' hij, runEnd_of_not_holds hstop]

/-- White space that is passed over after an anchor leads back to it. -/
theorem skipGapBack_skipGap {floor : Nat} (hfloor : floor ≤ p)
    (hlast : src.holds Cell.isGap (p - 1) = false) :
    src.skipGapBack (src.skipGap p l) floor = p :=
  runStart_eq hfloor (src.le_skipGap p l) (fun _ => holds_of_lt_runEnd) fun _ => hlast

/-- White space in front of a token leads up to it. -/
theorem skipGap_skipGapBack {floor : Nat} (hjl : j ≤ l) (htoken : src.holds Cell.isGap j = false) :
    src.skipGap (src.skipGapBack j floor) l = j :=
  runEnd_eq (src.runStart_le _ j floor) hjl (fun _ => holds_of_runStart_le) htoken

/-! ## Selectors -/

theorem wordAt?_of_binaryAt? (h : src.binaryAt? i l = some sp) : src.wordAt? i l = none := by
  cases hw : src.wordAt? i l with
  | none => rfl
  | some word =>
    have hnot := holds_eq_of (fun _ => Cell.isBinary_of_isLetter) (wordAt?_eq_some hw).2.1
    simp [Excerpt.binaryAt?_of_not_holds hnot] at h

theorem not_isGap_of_isSignificant (h : src.isSignificant i = true) :
    src.holds Cell.isGap i = false := by
  refine holds_eq_of (fun c hc => ?_) h
  obtain ⟨b, kind⟩ := c
  cases kind <;> simp_all [Cell.isSignificant, Cell.isGap, Cell.isCode]

theorem SelectorAt.not_isGap {kind : SelectorKind} (h : src.SelectorAt l sp kind) :
    src.holds Cell.isGap sp.start = false := by
  cases h with
  | unary hw =>
    have hletter := (wordAt?_eq_some hw).2.1
    exact not_isGap_of_isSignificant
      (isSignificant_of_isWordChar (holds_of_imp (fun _ => Cell.isWordChar_of_isLetter) hletter))
  | binary hb =>
    have hchars := binary_chars hb
    exact not_isGap_of_isSignificant (hchars.2 _ (Nat.le_refl _) hchars.1).1

/-- A selector starts with a letter or an operator. -/
theorem SelectorAt.first {kind : SelectorKind} (h : src.SelectorAt l sp kind) :
    src.holds Cell.isLetter sp.start = true ∨
      src.holds (fun c => c.isCode && Byte.isBinary c.byte) sp.start = true := by
  cases h with
  | unary hw => exact .inl (wordAt?_eq_some hw).2.1
  | binary hb =>
    refine .inr (Bool.of_not_eq_false fun hnot => ?_)
    simp [Excerpt.binaryAt?_of_not_holds hnot] at hb

theorem SelectorAt.lt {kind : SelectorKind} (h : src.SelectorAt l sp kind) : sp.start < sp.stop := by
  cases h with
  | unary hw => exact (src.wordAt?_bounds hw).2
  | binary hb => exact (binary_chars hb).1

/-- What is found after a receiver or a semicolon is the selector that stands there. -/
theorem sendAfter?_eq_some {r : Receiver} : src.sendAfter? r i l = some send ↔
    src.SelectorAt l send.span send.kind ∧ send.selector = src.slice send.span ∧ send.tokens = 1 ∧
      send.receiver = r ∧ send.span.start = src.skipGap i l := by
  constructor
  · intro h
    have hstart := start_of_sendAfter? h
    simp only [sendAfter?] at h
    split at h
    · next word hw =>
      split at h
      · simp at h
      · next hcolon =>
        obtain rfl := Option.some.inj h
        rw [← hstart] at hw
        exact ⟨.unary hw (by simpa using hcolon), rfl, rfl, rfl, hstart⟩
    · obtain ⟨token, hb, rfl⟩ := Option.map_eq_some_iff.1 h
      rw [← hstart] at hb
      exact ⟨.binary hb, rfl, rfl, rfl, hstart⟩
  · rintro ⟨htoken, hselector, htokens, rfl, hstart⟩
    obtain ⟨selector, kind, receiver, sp, tokens⟩ := send
    simp only at htoken hselector htokens hstart
    subst hselector htokens
    simp only [sendAfter?, ← hstart]
    cases htoken with
    | unary hw hcolon => simp [hw, hcolon]
    | binary hb => simp [wordAt?_of_binaryAt? hb, hb]

/-! ## Numbers -/

/-- The bytes of a decimal number that ends at `p`: digits up to `whole`, and maybe a period and more
digits. -/
structure Figures (src : Source) (l i whole p : Nat) : Prop where
  start : src.isWordStart i = true
  lt : i < whole
  digits : ∀ k, i ≤ k → k < whole → src.byteIs Byte.isDigit k = true
  fraction : p = whole ∨ src.byteIs (· == '.'.toUInt8) whole = true ∧ whole + 1 < p ∧
    p = src.digitsEnd (whole + 1) l ∧ ∀ k, whole < k → k < p → src.byteIs Byte.isDigit k = true
  stop : src.isWordEnd p = true
  code : ∀ k, i ≤ k → k < p → src.isCode k = true

theorem figures_of_numberAt? (h : src.numberAt? i l = some ⟨j, p⟩) :
    j = i ∧ ∃ whole, src.Figures l i whole p := by
  rw [numberAt?_eq] at h
  split at h
  · next hdigit =>
    rw [Bool.and_eq_true] at hdigit
    split at h
    · next hend =>
      obtain ⟨rfl, hp⟩ := Span.mk.inj (Option.some.inj h)
      rw [hp, Bool.and_eq_true, isCodeSpan, Bool.and_eq_true, List.all_eq_true] at hend
      have hle : i + 1 ≤ src.digitsEnd (i + 1) l := src.le_runEnd ..
      refine ⟨rfl, src.digitsEnd (i + 1) l, hdigit.2, hle, fun k hik hk => ?_, ?_, hend.1,
        fun k hik hk => hend.2.2 k (Span.mem_offsets.2 ⟨hik, hk⟩)⟩
      · rcases Nat.eq_or_lt_of_le hik with rfl | hlt
        · exact hdigit.1
        · exact holds_of_lt_runEnd hlt hk
      · generalize src.digitsEnd (i + 1) l = whole at hp
        rw [fractionEnd] at hp
        split at hp
        · next hpoint =>
          rw [Bool.and_eq_true, Bool.and_eq_true, decide_eq_true_eq] at hpoint
          have hmore : whole + 1 < src.digitsEnd (whole + 1) l := by
            rw [digitsEnd, runEnd_of_holds hpoint.1.1 hpoint.2]
            exact src.le_runEnd ..
          exact .inr ⟨hpoint.1.2, hp ▸ hmore, hp.symm,
            fun k hk hkp => holds_of_lt_runEnd hk (hp ▸ hkp)⟩
        · exact .inl hp.symm
    · simp at h
  · simp at h

theorem isWordStart_of_not_isIdent (h : src.byteIs Byte.isIdent i = false) :
    src.isWordStart (i + 1) = true := by
  simp [isWordStart, h]

theorem not_isIdent_of_point (h : src.byteIs (· == '.'.toUInt8) i = true) :
    src.byteIs Byte.isIdent i = false :=
  holds_eq_of (fun c hc => by rw [eq_of_beq hc]; decide) h

namespace Figures

variable {whole : Nat}

/-- The last digits of a number follow what is no part of a word. -/
theorem exists_last (h : src.Figures l i whole p) :
    ∃ g, i ≤ g ∧ g < p ∧ src.isWordStart g = true ∧
      ∀ k, g ≤ k → k < p → src.byteIs Byte.isDigit k = true := by
  rcases h.fraction with rfl | ⟨hpoint, hlt, -, hdigits⟩
  · exact ⟨i, Nat.le_refl i, h.lt, h.start, h.digits⟩
  · have hlt' := h.lt
    exact ⟨whole + 1, by omega, hlt, isWordStart_of_not_isIdent (not_isIdent_of_point hpoint),
      fun k hk => hdigits k hk⟩

/-- Inside a number stand digits and a period. -/
theorem digit_or_point (h : src.Figures l i whole p) (hik : i ≤ k) (hk : k < p) :
    src.byteIs Byte.isDigit k = true ∨ src.byteIs (· == '.'.toUInt8) k = true := by
  rcases Nat.lt_or_ge k whole with hlt | hge
  · exact .inl (h.digits k hik hlt)
  · rcases h.fraction with rfl | ⟨hpoint, -, -, hdigits⟩
    · omega
    · rcases Nat.eq_or_lt_of_le hge with rfl | hgt
      · exact .inr hpoint
      · exact .inl (hdigits k hgt hk)

/-- The only period of a number is the one in front of its last digits. -/
theorem eq_of_point (h : src.Figures l i whole p) (hik : i ≤ k) (hk : k < p)
    (hpoint : src.byteIs (· == '.'.toUInt8) k = true) :
    k = whole ∧ p = src.digitsEnd (whole + 1) l := by
  have hdigit : ¬src.byteIs Byte.isDigit k = true := fun hdigit => by
    have hident := isIdent_of_isDigit hdigit
    rw [not_isIdent_of_point hpoint] at hident
    simp at hident
  have hge : whole ≤ k := Nat.le_of_not_lt fun hlt => hdigit (h.digits k hik hlt)
  rcases h.fraction with rfl | ⟨-, -, hstop, hdigits⟩
  · omega
  · exact ⟨Nat.le_antisymm (Nat.le_of_not_lt fun hgt => hdigit (hdigits k hgt hk)) hge, hstop⟩

/-- A digit after a digit starts nothing. -/
theorem inner (h : src.Figures l i whole p) (hik : i < k) (hk : k < p)
    (hbefore : src.byteIs Byte.isDigit (k - 1) = true) (hhere : src.byteIs Byte.isDigit k = true) :
    src.Inner k := by
  have hchar : ∀ {k}, i ≤ k → k < p → src.byteIs Byte.isDigit k = true →
      src.holds Cell.isWordChar k = true := fun hik hk hdigit =>
    holds_and (h.code _ hik hk) (isIdent_of_isDigit hdigit)
  exact ⟨by omega, hchar (by omega) (by omega) hbefore, hchar (by omega) hk hhere⟩

end Figures

theorem not_isDigit_of_isWordEnd (h : src.isWordEnd p = true) : src.byteIs Byte.isDigit p = false := by
  refine Bool.eq_false_iff.2 fun hdigit => ?_
  rw [isWordEnd, isIdent_of_isDigit hdigit] at h
  simp at h

/-- Digits that are no part of a word are a number, if no period follows them. -/
theorem numberAt?_of_digits (hlt : i < p) (hpl : p ≤ l) (hstart : src.isWordStart i = true)
    (hdigits : ∀ k, i ≤ k → k < p → src.byteIs Byte.isDigit k = true)
    (hcode : ∀ k, i ≤ k → k < p → src.isCode k = true) (hend : src.isWordEnd p = true)
    (hpoint : src.byteIs (· == '.'.toUInt8) p = false) : src.numberAt? i l = some ⟨i, p⟩ := by
  have hwhole : src.digitsEnd (i + 1) l = p :=
    runEnd_eq hlt hpl (fun k hk hkp => hdigits k (by omega) hkp) (not_isDigit_of_isWordEnd hend)
  have hfraction : src.fractionEnd p l = p := by
    rw [fractionEnd, hpoint]
    simp
  have hsize : p ≤ src.size := by
    have hlast := lt_size_of_holds (hcode (p - 1) (by omega) (by omega))
    omega
  have hspan : src.isCodeSpan ⟨i, p⟩ = true := by
    rw [isCodeSpan, Bool.and_eq_true, List.all_eq_true]
    exact ⟨Nat.ble_eq_true_of_le hsize, fun k hk =>
      hcode k (Span.mem_offsets.1 hk).1 (Span.mem_offsets.1 hk).2⟩
  rw [numberAt?_eq, hwhole, hfraction, hdigits i (Nat.le_refl i) hlt, hstart, hend, hspan]
  rfl

/-! ## Receivers that are reached -/

theorem receiverAt?_cases {r : Receiver} (h : src.receiverAt? i l = some (r, p)) :
    (∃ word, src.wordAt? i l = some word ∧ word.stop = p ∧ r = .ofWord (src.slice word)) ∨
      (src.numberAt? i l = some ⟨i, p⟩ ∧ r = .unknown) ∨
      src.isCloser i = true ∧ p = i + 1 ∧ r = .unknown := by
  unfold receiverAt? at h
  split at h
  · next word hw =>
    split at h
    · simp at h
    · obtain ⟨rfl, rfl⟩ := Prod.mk.inj (Option.some.inj h)
      exact .inl ⟨word, hw, rfl, rfl⟩
  · split at h
    · next number hn =>
      obtain ⟨rfl, rfl⟩ := Prod.mk.inj (Option.some.inj h)
      obtain ⟨start, stop⟩ := number
      obtain rfl : start = i := (src.numberAt?_bounds hn).1
      exact .inr (.inl ⟨hn, rfl⟩)
    · split at h
      · next hcloser =>
        obtain ⟨rfl, rfl⟩ := Prod.mk.inj (Option.some.inj h)
        exact .inr (.inr ⟨hcloser, rfl, rfl⟩)
      · simp at h

theorem receiverAt?_of_wordAt? (h : src.wordAt? i l = some sp) (hcolon : src.codeAt sp.stop ':' = false) :
    src.receiverAt? i l = some (.ofWord (src.slice sp), sp.stop) := by
  simp [receiverAt?, h, hcolon]

theorem not_isDigit_of_isLetter (h : src.holds Cell.isLetter i = true) :
    src.byteIs Byte.isDigit i = false :=
  holds_eq_of (fun _ hc => Cell.isDigit_of_isIdentStart (Bool.and_eq_true_iff.1 hc).2) h

theorem not_isDigit_of_isCloser (h : src.isCloser i = true) :
    src.byteIs Byte.isDigit i = false ∧ src.byteIs (· == '.'.toUInt8) i = false := by
  rw [isCloser, Bool.or_eq_true, Bool.or_eq_true] at h
  have hbyte : ∀ {x : Char}, Byte.isDigit x.toUInt8 = false → x.toUInt8 ≠ '.'.toUInt8 →
      src.codeAt i x = true →
      src.byteIs Byte.isDigit i = false ∧ src.byteIs (· == '.'.toUInt8) i = false := by
    intro x hdigit hpoint hx
    constructor
    · exact holds_eq_of (fun c hc => by rw [eq_of_beq (Bool.and_eq_true_iff.1 hc).2, hdigit]) hx
    · exact holds_eq_of (fun c hc => by
        rw [eq_of_beq (Bool.and_eq_true_iff.1 hc).2, beq_eq_false_iff_ne]
        exact hpoint) hx
  rcases h with (hx | hx) | hx
  · exact hbyte (by decide) (by decide) hx
  · exact hbyte (by decide) (by decide) hx
  · exact hbyte (by decide) (by decide) hx

theorem receiverAt?_of_numberAt? (h : src.numberAt? i l = some ⟨i, p⟩) :
    src.receiverAt? i l = some (.unknown, p) := by
  have hword : src.wordAt? i l = none := by
    refine Excerpt.wordAt?_of_not_isLetter (Bool.eq_false_iff.2 fun hletter => ?_)
    have hdigit := isDigit_of_numberAt?_start h
    simp [not_isDigit_of_isLetter hletter] at hdigit
  simp [receiverAt?, hword, h]

theorem receiverAt?_of_isCloser (h : src.isCloser i = true) :
    src.receiverAt? i l = some (.unknown, i + 1) := by
  have hdigit := (not_isDigit_of_isCloser h).1
  have hword : src.wordAt? i l = none := by
    refine Excerpt.wordAt?_of_not_isLetter (Bool.eq_false_iff.2 fun hletter => ?_)
    have hchar := holds_of_imp (fun _ => Cell.isWordChar_of_isLetter) hletter
    rw [isCloser, codeAt_of_isWordChar (by decide) hchar, codeAt_of_isWordChar (by decide) hchar,
      codeAt_of_isWordChar (by decide) hchar] at h
    simp at h
  simp [receiverAt?, hword, numberAt?, hdigit, h]

/-- A receiver that starts inside another one is a number, and its first digits end where the other
one ends. -/
theorem receiverAt?_inside {r r' : Receiver} {stop : Nat}
    (hover : src.receiverAt? j l = some (r', stop)) (hjk : j < k) (hk : k < stop)
    (h : src.receiverAt? k l = some (r, p)) :
    r' = .unknown ∧ r = .unknown ∧ src.byteIs Byte.isDigit k = true ∧ stop = src.digitsEnd k l := by
  have hinner : ¬src.Inner k := fun hinner => by simp [hinner.receiverAt?] at h
  rcases receiverAt?_cases hover with ⟨word, hw, rfl, -⟩ | ⟨hn, rfl⟩ | ⟨-, rfl, -⟩
  · exact absurd (inner_of_wordAt? hw hjk hk) hinner
  · obtain ⟨-, whole, hfigures⟩ := figures_of_numberAt? hn
    -- A word or a bracket is neither a digit nor a period.
    have hr : r = .unknown ∧ src.byteIs Byte.isDigit k = true := by
      rcases receiverAt?_cases h with ⟨word, hw, -, -⟩ | ⟨hn', rfl⟩ | ⟨hcloser, -, -⟩
      · have hletter := (wordAt?_eq_some hw).2.1
        rcases hfigures.digit_or_point (Nat.le_of_lt hjk) hk with hdigit | hpoint
        · simp [not_isDigit_of_isLetter hletter] at hdigit
        · have hident := holds_of_imp
            (fun c hc => Cell.isIdent_of_isWordChar (Cell.isWordChar_of_isLetter hc)) hletter
          rw [show src.holds _ k = _ from not_isIdent_of_point hpoint] at hident
          simp at hident
      · exact ⟨rfl, isDigit_of_numberAt?_start hn'⟩
      · rcases hfigures.digit_or_point (Nat.le_of_lt hjk) hk with hdigit | hpoint
        · simp [(not_isDigit_of_isCloser hcloser).1] at hdigit
        · simp [(not_isDigit_of_isCloser hcloser).2] at hpoint
    refine ⟨rfl, hr.1, hr.2, ?_⟩
    rcases hfigures.digit_or_point (k := k - 1) (by omega) (by omega) with hbefore | hpoint
    · exact absurd (hfigures.inner hjk hk hbefore hr.2) hinner
    · obtain ⟨heq, hstop⟩ := hfigures.eq_of_point (by omega) (by omega) hpoint
      rwa [← heq, Nat.sub_add_cancel (by omega)] at hstop
  · omega

/-- The scan for receivers comes upon each of them, unless it is a number which goes on behind a number
that it starts in. -/
theorem mem_receiverSendsFrom_of_receiverAt? {r : Receiver} (hik : i ≤ k)
    (h : src.receiverAt? k l = some (r, p))
    (hdigits : src.byteIs Byte.isDigit k = true → src.digitsEnd k l = p)
    (hsend : src.sendAfter? r p l = some send) : send ∈ src.receiverSendsFrom i l := by
  have hkl : k < l := by
    have hkp := src.receiverAt?_lt h
    have hbounds := sendAfter?_bounds hsend
    have hgap := src.le_skipGap p l
    omega
  induction hd : k - i using Nat.strongRecOn generalizing i with
  | ind d ih =>
    rcases Nat.eq_or_lt_of_le hik with rfl | hlt
    · rw [receiverSendsFrom_of_some hkl h]
      exact List.mem_append_left _ (Option.mem_toList.2 hsend)
    · cases hr : src.receiverAt? i l with
      | none =>
        rw [receiverSendsFrom_of_none hr]
        exact ih (k - (i + 1)) (by omega) hlt rfl
      | some found =>
        obtain ⟨r', stop⟩ := found
        have hstop := src.receiverAt?_lt hr
        rw [receiverSendsFrom_of_some (by omega) hr, List.mem_append]
        rcases Nat.lt_or_ge k stop with hin | hout
        · obtain ⟨rfl, rfl, hdigit, rfl⟩ := receiverAt?_inside hr hlt hin h
          rw [hdigits hdigit]
          exact .inl (Option.mem_toList.2 hsend)
        · exact .inr (ih (k - stop) (by omega) hout rfl)

/-- The scan for cascades comes upon each semicolon. -/
theorem mem_cascadeSendsAt_iff {n : Nesting} : send ∈ src.cascadeSendsAt l n (Span.offsets ⟨i, j⟩) ↔
    ∃ k, i ≤ k ∧ k < j ∧ src.codeAt k ';' = true ∧ (src.nestFrom n i (k + 1)).isTopLevel = true ∧
      src.sendAfter? .cascade (k + 1) l = some send := by
  induction hd : j - i generalizing i n with
  | zero =>
    rw [Span.offsets_nil (by omega)]
    simp only [cascadeSendsAt, List.not_mem_nil, false_iff]
    rintro ⟨k, hik, hkj, -⟩
    omega
  | succ d ih =>
    have hnest : ∀ k, i ≤ k → src.nestFrom n i (k + 1) = src.nestFrom (src.nest n i) (i + 1) (k + 1) :=
      fun k hik => nestFrom_cons (by omega)
    have hmem : send ∈ src.cascadeSendsAt l n (i :: Span.offsets ⟨i + 1, j⟩) ↔
        (src.codeAt i ';' = true ∧ (src.nest n i).isTopLevel = true ∧
          src.sendAfter? .cascade (i + 1) l = some send) ∨
          send ∈ src.cascadeSendsAt l (src.nest n i) (Span.offsets ⟨i + 1, j⟩) := by
      simp only [cascadeSendsAt]
      split
      · next hsemi =>
        rw [Bool.and_eq_true] at hsemi
        simp [hsemi]
      · next hsemi => simp_all
    rw [Span.offsets_cons (by omega), hmem, ih (by omega)]
    constructor
    · rintro (⟨hsemi, htop, hsend⟩ | ⟨k, hik, hkj, hsemi, htop, hsend⟩)
      · exact ⟨i, Nat.le_refl i, by omega, hsemi, by rwa [hnest i (Nat.le_refl i), nestFrom_self], hsend⟩
      · exact ⟨k, by omega, hkj, hsemi, by rwa [hnest k (by omega)], hsend⟩
    · rintro ⟨k, hik, hkj, hsemi, htop, hsend⟩
      rw [hnest k hik] at htop
      rcases Nat.eq_or_lt_of_le hik with rfl | hlt
      · rw [nestFrom_self] at htop
        exact .inl ⟨hsemi, htop, hsend⟩
      · exact .inr ⟨k, hlt, hkj, hsemi, htop, hsend⟩

/-! ## The sends of a region -/

/-- White space or a selector follows the receiver of a send. -/
theorem byte_after_receiver {r : Receiver} (h : src.sendAfter? r p l = some send) {x : UInt8}
    (hx : Byte.isBlank x = false ∧ Byte.isIdentStart x = false ∧ Byte.isBinary x = false) :
    src.byteIs (· == x) p = false := by
  obtain ⟨htoken, -, -, -, hstart⟩ := sendAfter?_eq_some.1 h
  have hne : ∀ {q : UInt8 → Bool} {b : UInt8}, q x = false → q b = true → (b == x) = false := by
    intro q b hq hb
    rw [beq_eq_false_iff_ne]
    rintro rfl
    simp [hq] at hb
  rcases Nat.eq_or_lt_of_le (src.le_skipGap p l) with heq | hlt
  · rw [heq, ← hstart]
    rcases htoken.first with hletter | hbinary
    · exact holds_eq_of (fun c hc => hne hx.2.1 (Bool.and_eq_true_iff.1 hc).2) hletter
    · exact holds_eq_of (fun c hc => hne hx.2.2 (Bool.and_eq_true_iff.1 hc).2) hbinary
  · exact holds_eq_of (fun c hc => hne hx.1 (Bool.and_eq_true_iff.1 hc).2)
      (holds_of_lt_runEnd (Nat.le_refl p) hlt)

theorem receiverEnds_of_receiverAt? {region : Span} {r : Receiver} (hk : region.start ≤ k)
    (h : src.receiverAt? k region.stop = some (r, p)) : src.ReceiverEnds region p r := by
  rcases receiverAt?_cases h with ⟨word, hw, hstop, rfl⟩ | ⟨hn, rfl⟩ | ⟨hcloser, rfl, rfl⟩
  · have hstart := (src.wordAt?_bounds hw).1
    exact .word (by omega) (by rwa [hstart]) hstop
  · exact .number hn
  · exact .closer hcloser

/-- Each send to a receiver that ends in the region is found. -/
theorem ReceiverEnds.mem_sends {region : Span} {r : Receiver} (h : src.ReceiverEnds region p r)
    (hp : region.start < p) (hsend : src.sendAfter? r p region.stop = some send)
    (hbefore : region.start < region.stop → src.byteIs Byte.isDigit (region.start - 1) = false) :
    send ∈ src.receiverSendsFrom region.start region.stop ∨
      send ∈ src.cascadeSendsAt region.stop .empty region.offsets := by
  have hbounds := sendAfter?_bounds hsend
  have hgap := src.le_skipGap p region.stop
  cases h with
  | @word word hstart hw hstop =>
    subst hstop
    have hcolon : src.codeAt word.stop ':' = false := by
      refine Bool.eq_false_iff.2 fun hcolon => ?_
      have hbyte := byte_after_receiver hsend (x := ':'.toUInt8) (by decide)
      rw [byteIs, holds_of_imp (fun c hc => (Bool.and_eq_true_iff.1 hc).2) hcolon] at hbyte
      simp at hbyte
    refine .inl (mem_receiverSendsFrom_of_receiverAt? hstart (receiverAt?_of_wordAt? hw hcolon)
      (fun hdigit => ?_) hsend)
    simp [not_isDigit_of_isLetter (wordAt?_eq_some hw).2.1] at hdigit
  | @number i hn =>
    obtain ⟨-, whole, hfigures⟩ := figures_of_numberAt? hn
    obtain ⟨g, hig, hgp, hstart, hdigits⟩ := hfigures.exists_last
    have hnumber : src.numberAt? g region.stop = some ⟨g, p⟩ :=
      numberAt?_of_digits hgp (by omega) hstart hdigits
        (fun k hk => hfigures.code k (by omega)) hfigures.stop
        (byte_after_receiver hsend (by decide))
    have hg : region.start ≤ g := by
      by_contra hlt
      have hbefore' := hbefore (by omega)
      rw [hdigits (region.start - 1) (by omega) (by omega)] at hbefore'
      simp at hbefore'
    refine .inl (mem_receiverSendsFrom_of_receiverAt? hg (receiverAt?_of_numberAt? hnumber)
      (fun _ => ?_) hsend)
    exact runEnd_eq (Nat.le_of_lt hgp) (by omega) hdigits (not_isDigit_of_isWordEnd hfigures.stop)
  | closer hcloser =>
    have hreceiver := receiverAt?_of_isCloser (l := region.stop) hcloser
    rw [Nat.sub_add_cancel (by omega)] at hreceiver
    refine .inl (mem_receiverSendsFrom_of_receiverAt? (by omega) hreceiver (fun hdigit => ?_) hsend)
    simp [(not_isDigit_of_isCloser hcloser).1] at hdigit
  | cascade hsemi htop =>
    refine .inr (mem_cascadeSendsAt_iff.2 ⟨p - 1, by omega, by omega, hsemi, ?_, ?_⟩)
    · rwa [Nat.sub_add_cancel (by omega)]
    · rwa [Nat.sub_add_cancel (by omega)]

/-- The unary and binary sends of a region are those that are recognised. No number may reach into the
region from the left. -/
theorem mem_simpleSends_iff {region : SendRegion}
    (hbefore : region.span.start < region.span.stop →
      src.byteIs Byte.isDigit (region.span.start - 1) = false) :
    send ∈ src.simpleSends region ↔ src.Recognized region send := by
  have hfound : ∀ {r : Receiver} {p : Nat}, region.span.start < p →
      src.holds Cell.isGap (p - 1) = false → src.ReceiverEnds region.span p r →
      src.sendAfter? r p region.span.stop = some send → region.admits send.span = true →
      src.Recognized region send := by
    intro r p hp hlast hends hsend hadmits
    obtain ⟨htoken, hselector, htokens, rfl, hstart⟩ := sendAfter?_eq_some.1 hsend
    have hback : src.skipGapBack send.span.start region.span.start = p := by
      rw [hstart]
      exact skipGapBack_skipGap (Nat.le_of_lt hp) hlast
    exact ⟨htoken, hselector, htokens, hadmits, by rwa [hback], by rwa [hback]⟩
  rw [simpleSends, List.mem_filter, List.mem_append]
  constructor
  · rintro ⟨h | h, hadmits⟩
    · obtain ⟨k, r, stop, hk, hreceiver, hsend⟩ := mem_receiverSendsFrom h
      have hstop := src.receiverAt?_lt hreceiver
      exact hfound (by omega) (receiverAt?_last hreceiver).1 (receiverEnds_of_receiverAt? hk hreceiver)
        hsend hadmits
    · obtain ⟨k, hk, -, hsemi, htop, hsend⟩ := mem_cascadeSendsAt_iff.1 h
      refine hfound (Nat.lt_succ_of_le hk) ?_ (.cascade hsemi htop) hsend hadmits
      exact not_isGap_of_codeAt (by decide) hsemi
  · intro h
    have hin := Span.contains_iff.1 (Bool.and_eq_true_iff.1 h.admitted).1
    have hstart : src.skipGap (src.skipGapBack send.span.start region.span.start)
        region.span.stop = send.span.start := skipGap_skipGapBack
      (Nat.le_trans (Nat.le_of_lt h.token.lt) hin.2) h.token.not_isGap
    have hsend := sendAfter?_eq_some.2 ⟨h.token, h.selector, h.tokens, rfl, hstart.symm⟩
    exact ⟨h.receiver.mem_sends h.preceded hsend hbefore, h.admitted⟩

/-! ## The theorem -/

/-- No digit stands right before the region of a method. -/
theorem not_isDigit_before_region (src : Source)
    (h : src.statementRegion.start < src.size) :
    src.byteIs Byte.isDigit (src.statementRegion.start - 1) = false := by
  have hsign : ∀ {x : Char}, Byte.isDigit x.toUInt8 = false →
      src.codeAt (src.statementRegion.start - 1) x = true →
      src.byteIs Byte.isDigit (src.statementRegion.start - 1) = false := fun hx hcode =>
    holds_eq_of (fun c hc => by rw [eq_of_beq (Bool.and_eq_true_iff.1 hc).2, hx]) hcode
  rcases src.region_start_cases with heq | ⟨-, hcode | hcode⟩
  · rcases oneLine_or_newline src.text.toList with hline | ⟨line, rest, htext, hnot⟩
    · rw [heq, bodyStart_of_oneLine hline] at h
      omega
    · rw [heq, bodyStart_of_newline htext hnot, Nat.add_sub_cancel, byteIs, holds,
        cell_of_cut htext (by unfold IsAscii; decide), Option.any_some]
      exact (by decide : Byte.isDigit '\n'.toUInt8 = false)
  · exact hsign (by decide) hcode
  · exact hsign (by decide) hcode

theorem kind_of_mem_keywordSends (h : send ∈ src.keywordSends src.sendRegion) :
    send.kind = .keyword := by
  rw [keywordSends_eq] at h
  obtain ⟨run, -, rfl⟩ := List.mem_map.1 h
  rfl

theorem Recognized.kind_ne_keyword {region : SendRegion} (h : src.Recognized region send) :
    send.kind ≠ .keyword := by
  have htoken := h.token
  cases hkind : send.kind <;> rw [hkind] at htoken <;> cases htoken <;> simp

/-- A unary or binary send is known by its selector and by what stands before it. All sends start apart,
so its receiver is the only one that is recognised. -/
theorem sends_recognized (text : String) :
    let src := Source.ofText text
    (∀ send, send ∈ src.sends ∧ send.kind ≠ .keyword ↔ src.Recognized src.sendRegion send) ∧
      ∀ a ∈ src.sends, ∀ b ∈ src.sends, a.span.start = b.span.start → a = b := by
  intro src
  refine ⟨fun send => ?_, fun a ha b hb => send_eq_of_start_eq ha hb⟩
  have hsimple : send ∈ src.simpleSends src.sendRegion ↔ src.Recognized src.sendRegion send :=
    mem_simpleSends_iff src.not_isDigit_before_region
  rw [mem_sends, ← hsimple]
  constructor
  · rintro ⟨h | h, hkind⟩
    · exact absurd (kind_of_mem_keywordSends h) hkind
    · exact h
  · intro h
    exact ⟨.inr h, (hsimple.1 h).kind_ne_keyword⟩

end MethodBrowser.Source
