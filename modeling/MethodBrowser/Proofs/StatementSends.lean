import MethodBrowser.Outline
import MethodBrowser.Proofs.Send.Starts

/-!
# The sends of statements

Every send of a method lies in one of its statements, and the sends of the statements, one after the
other, are the sends of the method (`sends_partitioned`). Nothing is asked of the text: its groups may
be unbalanced and its literals may be left open.

**Two ways of counting.** Statements are cut at periods outside all groups, counted from the start of
the body, where a closing bracket that closes nothing is passed over. A keyword run counts from its
first keyword on, and ends at such a bracket. As long as a run goes on, the groups open in the body are
those that were open at its first keyword and those that the run has opened. So a period that is
outside all groups of the body is outside all groups of the run, where it ends the run
(`Source.not_endsStatement_of_mem_levelTail`).
-/

namespace MethodBrowser

/-! ## Cutting -/

/-- The pieces of the offsets from `start` up to `stop`, cut at offsets that satisfy `cut`. -/
inductive Pieces (cut : Nat → Prop) (stop : Nat) : Nat → List Span → Prop
  | last {start : Nat} : Pieces cut stop start [⟨start, stop⟩]
  | cons {start i : Nat} {pieces : List Span} :
      start ≤ i → cut i → Pieces cut stop (i + 1) pieces → Pieces cut stop start (⟨start, i⟩ :: pieces)

namespace Pieces

variable {cut cut' : Nat → Prop} {stop start : Nat} {pieces : List Span}

theorem imp (h : Pieces cut stop start pieces) (himp : ∀ i, cut i → cut' i) :
    Pieces cut' stop start pieces := by
  induction h with
  | last => exact .last
  | cons hle hcut _ ih => exact .cons hle (himp _ hcut) ih

theorem le_start (h : Pieces cut stop start pieces) : ∀ piece ∈ pieces, start ≤ piece.start := by
  induction h with
  | last => simp
  | @cons start i pieces hle _ _ ih =>
    refine List.forall_mem_cons.2 ⟨Nat.le_refl _, fun piece hpiece => ?_⟩
    have := ih piece hpiece
    omega

theorem pairwise (h : Pieces cut stop start pieces) :
    pieces.Pairwise fun a b => a.stop ≤ b.start := by
  induction h with
  | last => exact List.pairwise_singleton ..
  | cons _ _ hrest ih =>
    refine .cons (fun piece hpiece => ?_) ih
    have := hrest.le_start piece hpiece
    simp only
    omega

/-- A span in which no offset is cut at lies in one of the pieces. -/
theorem exists_contains (h : Pieces cut stop start pieces) {sp : Span} (hstart : start ≤ sp.start)
    (hstop : sp.stop ≤ stop)
    (hsp : ∀ k, sp.start ≤ k → k < sp.stop → ¬cut k) : ∃ piece ∈ pieces, piece.contains sp := by
  induction h with
  | last => exact ⟨_, List.mem_singleton.2 rfl, Span.contains_iff.2 ⟨hstart, hstop⟩⟩
  | @cons start i pieces hle hcut _ ih =>
    rcases Nat.lt_or_ge i sp.start with hlt' | hge
    · obtain ⟨piece, hpiece, hcontains⟩ := ih hlt'
      exact ⟨piece, List.mem_cons_of_mem _ hpiece, hcontains⟩
    · have hout : sp.stop ≤ i := Nat.le_of_not_lt fun hin => hsp i hge hin hcut
      exact ⟨⟨start, i⟩, List.mem_cons_self .., Span.contains_iff.2 ⟨hstart, hout⟩⟩

end Pieces

namespace Nesting

theorem isTopLevel_of_add {n m : Nesting} (h : (n.add m).isTopLevel = true) :
    m.isTopLevel = true := by
  simp only [isTopLevel, add, Bool.and_eq_true, beq_iff_eq] at h ⊢
  omega

end Nesting

namespace Source

variable {src : Source} {i j k l : Nat} {n m : Nesting} {sp token : Span}

/-! ## The periods that end statements -/

/-- The counters before the byte at `j`, if they are `n` before the byte at `i`. -/
def nestFrom (src : Source) (n : Nesting) (i j : Nat) : Nesting :=
  (Span.offsets ⟨i, j⟩).foldl src.nest n

theorem nestFrom_cons (h : i < j) : src.nestFrom n i j = src.nestFrom (src.nest n i) (i + 1) j := by
  rw [nestFrom, Span.offsets_cons h]
  rfl

theorem nestFrom_trans (hij : i ≤ j) (hjk : j ≤ k) :
    src.nestFrom n i k = src.nestFrom (src.nestFrom n i j) j k := by
  rw [nestFrom, Span.offsets_append hij hjk, List.foldl_append]
  rfl

/-- The byte at `k` ends a statement, if the counters are `n` before the byte at `i`. -/
def endsStatement (src : Source) (n : Nesting) (i k : Nat) : Bool :=
  (src.nestFrom n i (k + 1)).isTopLevel && src.isTerminator k

theorem endsStatement_self : src.endsStatement n i i = ((src.nest n i).isTopLevel && src.isTerminator i) := by
  rw [endsStatement, nestFrom_cons (by omega), nestFrom, Span.offsets_nil (Nat.le_refl _)]
  rfl

theorem endsStatement_of_lt (h : i < k) :
    src.endsStatement n i k = src.endsStatement (src.nest n i) (i + 1) k := by
  rw [endsStatement, nestFrom_cons (by omega)]
  rfl

theorem endsStatement_trans (hij : i ≤ j) (hjk : j ≤ k) :
    src.endsStatement n i k = src.endsStatement (src.nestFrom n i j) j k := by
  rw [endsStatement, nestFrom_trans hij (by omega)]
  rfl

theorem endsStatement_of_not_period (h : src.codeAt k '.' = false) :
    src.endsStatement n i k = false := by
  rw [endsStatement, isTerminator, h]
  simp

/-- A region is cut where statements end. -/
theorem pieces_cut (src : Source) (stop : Nat) {start : Nat} (n : Nesting) (hstart : start ≤ i) :
    Pieces (fun k => i ≤ k ∧ src.endsStatement n i k = true) stop start
      (src.pieces stop start n (Span.offsets ⟨i, stop⟩)) := by
  induction hd : stop - i generalizing i start n with
  | zero =>
    rw [Span.offsets_nil (by omega)]
    exact .last
  | succ d ih =>
    have hlater : ∀ k, i + 1 ≤ k ∧ src.endsStatement (src.nest n i) (i + 1) k = true →
        i ≤ k ∧ src.endsStatement n i k = true := by
      intro k hk
      rw [endsStatement_of_lt (by omega)]
      exact ⟨by omega, hk.2⟩
    rw [Span.offsets_cons (by omega), pieces]
    by_cases hend : ((src.nest n i).isTopLevel && src.isTerminator i) = true
    · rw [if_pos hend]
      rw [← endsStatement_self] at hend
      exact .cons hstart ⟨Nat.le_refl _, hend⟩
        ((ih (src.nest n i) (Nat.le_refl _) (by omega)).imp hlater)
    · rw [if_neg hend]
      exact (ih (src.nest n i) (by omega) (by omega)).imp hlater

/-! ## Statements -/

/-- The end of a run that does not reach an offset from above. -/
theorem lt_runStart_of_not_holds {p : Cell → Bool} (hki : k < i) (h : src.holds p k = false) :
    k < src.runStart p i l := by
  by_contra hle
  rw [holds_of_runStart_le (i := i) (l := l) (by omega) hki] at h
  simp at h

/-- A span of the body that starts and ends with a significant byte and that no period cuts. -/
structure Unbroken (src : Source) (sp : Span) : Prop where
  within : src.statementRegion.contains sp = true
  lt : sp.start < sp.stop
  first : src.isSignificant sp.start = true
  last : src.isSignificant (sp.stop - 1) = true
  whole : ∀ k, sp.start ≤ k → k < sp.stop →
    src.endsStatement .empty src.statementRegion.start k = false

/-- Narrowing a piece keeps what is significant. -/
theorem Unbroken.exists_trim {raw : Span} (h : src.Unbroken sp) (hraw : raw.contains sp = true) :
    ∃ trimmed, src.trim? raw = some trimmed ∧ trimmed.contains sp = true := by
  rw [Span.contains_iff] at hraw
  have hlt := h.lt
  have hfirst : src.holds (fun c => !c.isSignificant) sp.start = false :=
    holds_eq_of (by simp) h.first
  have hlast : src.holds (fun c => !c.isSignificant) (sp.stop - 1) = false :=
    holds_eq_of (by simp) h.last
  have hstart := runEnd_le_of_not_holds (l := raw.stop) hraw.1 hfirst
  have hstop := lt_runStart_of_not_holds (i := raw.stop)
    (l := src.runEnd (fun c => !c.isSignificant) raw.start raw.stop) (by omega) hlast
  refine ⟨_, by rw [trim?, if_pos (by omega)], Span.contains_iff.2 ⟨hstart, ?_⟩⟩
  simp only
  omega

theorem Unbroken.exists_statement (h : src.Unbroken sp) :
    ∃ st ∈ src.statements, st.span.contains sp = true := by
  have hwithin := Span.contains_iff.1 h.within
  have hpieces := src.pieces_cut src.statementRegion.stop .empty
    (Nat.le_refl src.statementRegion.start)
  obtain ⟨piece, hpiece, hcontains⟩ := hpieces.exists_contains hwithin.1 hwithin.2
    fun k hstart hstop hcut => by simp [h.whole k hstart hstop] at hcut
  obtain ⟨trimmed, htrim, hcontains'⟩ := h.exists_trim hcontains
  refine ⟨⟨trimmed, src.statementKind trimmed⟩, ?_, hcontains'⟩
  exact List.mem_filterMap.2 ⟨piece, hpiece, by rw [statementIn?, htrim]; rfl⟩

theorem contains_of_trim? {raw trimmed : Span} (h : src.trim? raw = some trimmed) :
    raw.contains trimmed = true := by
  have hstart := src.le_runEnd (fun c => !c.isSignificant) raw.start raw.stop
  have hstop := src.runStart_le (fun c => !c.isSignificant) raw.stop
    (src.runEnd (fun c => !c.isSignificant) raw.start raw.stop)
  simp only [trim?] at h
  split at h
  · obtain rfl := Option.some.inj h
    exact Span.contains_iff.2 ⟨hstart, hstop⟩
  · simp at h

/-- Statements are apart and in order. -/
theorem pairwise_statements (src : Source) :
    src.statements.Pairwise fun a b => a.span.stop ≤ b.span.start := by
  have hpieces := src.pieces_cut src.statementRegion.stop .empty
    (Nat.le_refl src.statementRegion.start)
  refine List.Pairwise.filterMap _ ?_ hpieces.pairwise
  intro raw raw' hle a ha b hb
  obtain ⟨trimmed, htrim, rfl⟩ := Option.map_eq_some_iff.1 ha
  obtain ⟨trimmed', htrim', rfl⟩ := Option.map_eq_some_iff.1 hb
  have hstop := (Span.contains_iff.1 (contains_of_trim? htrim)).2
  have hstart := (Span.contains_iff.1 (contains_of_trim? htrim')).1
  simp only
  omega

/-! ## No period cuts a send -/

theorem isSignificant_of_isWordChar (h : src.holds Cell.isWordChar i = true) :
    src.isSignificant i = true :=
  holds_of_imp (fun _ => Cell.isSignificant_of_isWordChar) h

/-- A run ends at a period on its level. -/
theorem levelTail_of_isTerminator (htop : m.isTopLevel = true) (h : src.isTerminator i = true) :
    src.levelTail m i l = [] := by
  have hends : src.endsRun i = true := by rw [endsRun, h, Bool.or_true]
  rw [isTerminator, Bool.and_eq_true] at h
  rw [levelTail]
  simp [codeByte?_of_codeAt h.1, htop, hends]

/-- The groups that are open in the body change as those of a run do. -/
theorem nest_add (h : src.codeByte? i = none ∧ m = n ∨
      ∃ b, src.codeByte? i = some b ∧ n.step? b = some m) (outer : Nesting) :
    src.nest (outer.add n) i = outer.add m := by
  refine nest_eq ?_
  rcases h with ⟨hb, rfl⟩ | ⟨b, hb, hstep⟩
  · exact .inl ⟨hb, rfl⟩
  · exact .inr ⟨b, hb, Nesting.step?_add hstep⟩

theorem nest_of_isTerminator (h : src.isTerminator i = true) : src.nest n i = n := by
  rw [isTerminator, Bool.and_eq_true] at h
  rw [nest, codeByte?_of_codeAt h.1]
  rfl

/-- No statement ends before a keyword that continues a run. -/
theorem not_endsStatement_of_mem_levelTail (outer : Nesting) (h : token ∈ src.levelTail n i l)
    (hik : i ≤ k) (hk : k < token.start) : src.endsStatement (outer.add n) i k = false := by
  induction hd : k - i generalizing i n with
  | zero =>
    obtain rfl : i = k := by omega
    rw [endsStatement_self, Bool.and_eq_false_iff, ← Bool.not_eq_true, ← Bool.not_eq_true,
      ← not_and_or]
    rintro ⟨htop, hterm⟩
    rw [nest_of_isTerminator hterm] at htop
    rw [levelTail_of_isTerminator (Nesting.isTopLevel_of_add htop) hterm] at h
    simp at h
  | succ d ih =>
    have hlt : i < l := Nat.lt_of_not_le fun hle => by simp [levelTail_of_le hle] at h
    rcases src.levelTail_cases n hlt with hnil | ⟨n', hstep, heq | ⟨token', hkeyword, -, heq⟩⟩
    · simp [hnil] at h
    · rw [endsStatement_of_lt (by omega), nest_add hstep]
      exact ih (heq ▸ h) (by omega) (by omega)
    · have hstart := (src.keywordAt?_bounds hkeyword).1
      rw [heq, List.mem_cons] at h
      rw [endsStatement_of_lt (by omega), nest_add hstep]
      refine ih (h.resolve_left ?_) (by omega) (by omega)
      rintro rfl
      omega

/-- The characters of a keyword are significant, and no period is among them. -/
theorem keyword_chars (h : src.keywordAt? token.start l = some token) (hstart : token.start ≤ k)
    (hstop : k < token.stop) : src.isSignificant k = true ∧ src.codeAt k '.' = false := by
  rcases keywordAt?_chars h hstart hstop with hchar | hcolon
  · exact ⟨isSignificant_of_isWordChar hchar, codeAt_of_isWordChar (by decide) hchar⟩
  · refine ⟨holds_of_imp (fun c hc => ?_) hcolon, codeAt_ne (by decide) hcolon⟩
    rw [Cell.isCodeChar, Cell.isCode, Bool.and_eq_true, beq_iff_eq, beq_iff_eq] at hc
    rw [Cell.isSignificant, hc.1, hc.2]
    decide

/-- A keyword of a run that comes last, and what stands between it and the first one. -/
theorem keywordRun_span {region : SendRegion} {first : Span}
    (hfirst : src.keywordAt? first.start region.span.stop = some first) :
    ∃ last, (src.keywordRun region first).span = ⟨first.start, last.stop⟩ ∧
      src.keywordAt? last.start region.span.stop = some last ∧
      (last = first ∨ last ∈ src.levelTail .empty first.stop region.span.stop) := by
  have hbounds := src.keywordAt?_bounds hfirst
  have hrest : (src.keywordRun region first).rest =
      src.levelTail .empty first.stop region.span.stop := runTail_eq_levelTail ..
  cases hlast : (src.keywordRun region first).rest.getLast? with
  | none =>
    refine ⟨first, ?_, hfirst, .inl rfl⟩
    rw [KeywordRun.span, hlast]
    simp [Span.merge, keywordRun]
  | some last =>
    have hmem := List.mem_of_getLast? hlast
    rw [hrest] at hmem
    obtain ⟨hle, hk⟩ := mem_levelTail hmem
    have hbounds' := src.keywordAt?_bounds hk
    refine ⟨last, ?_, hk, .inr hmem⟩
    rw [KeywordRun.span, hlast, Option.getD_some]
    change first.merge last = _
    rw [Span.merge, if_pos (by omega), if_pos (by omega)]

theorem unbroken_keywordRun {run : KeywordRun} (h : run ∈ src.keywordRuns src.sendRegion) :
    src.Unbroken run.span := by
  have hwithin := contains_run_span h
  obtain ⟨first, hfirst, hle, rfl, -⟩ := mem_keywordRuns h
  obtain ⟨last, hspan, hlast, hcases⟩ := keywordRun_span hfirst
  have hbounds := src.keywordAt?_bounds hfirst
  have hbounds' := src.keywordAt?_bounds hlast
  rw [hspan] at hwithin ⊢
  have hlt : first.start < last.stop := by
    rcases hcases with rfl | hmem
    · exact hbounds.2
    · have := (mem_levelTail hmem).1
      omega
  have hfinal := keyword_chars hlast (Nat.le_sub_one_of_lt hbounds'.2)
    (Nat.sub_lt (Nat.zero_lt_of_lt hbounds'.2) Nat.one_pos)
  refine ⟨hwithin, hlt, (keyword_chars hfirst (Nat.le_refl _) hbounds.2).1, hfinal.1,
    fun k hstart hstop => ?_⟩
  -- The byte is one of the first keyword, one of the last keyword, or between them.
  rcases Nat.lt_or_ge k first.stop with hin | hafter
  · exact endsStatement_of_not_period (keyword_chars hfirst hstart hin).2
  · rcases Nat.lt_or_ge k last.start with hbefore | hin
    · rcases hcases with rfl | hmem
      · omega
      · have hle' : src.statementRegion.start ≤ first.stop :=
          Nat.le_trans hle (Nat.le_of_lt hbounds.2)
        rw [endsStatement_trans (j := first.stop) hle' hafter, ← Nesting.add_empty (nestFrom ..)]
        exact not_endsStatement_of_mem_levelTail _ hmem hafter hbefore
    · exact endsStatement_of_not_period (keyword_chars hlast hin hstop).2

theorem isBinary_of_isBlank {b : UInt8} (h : Byte.isBlank b = true) : Byte.isBinary b = false := by
  simp only [Byte.isBlank, Bool.or_eq_true, beq_iff_eq] at h
  rcases h with (((rfl | rfl) | rfl) | rfl) | rfl <;> decide

/-- The characters of an operator are significant, and no period is among them. -/
theorem binary_chars (h : src.binaryAt? i l = some token) :
    token.start < token.stop ∧ ∀ k, token.start ≤ k → k < token.stop →
      src.isSignificant k = true ∧ src.codeAt k '.' = false := by
  simp only [binaryAt?] at h
  split at h
  · next hlt =>
    obtain rfl := Option.some.inj h
    simp only [Bool.and_eq_true, decide_eq_true_eq] at hlt
    refine ⟨hlt.1, fun k hstart hstop => ?_⟩
    have hchar := holds_of_lt_runEnd hstart hstop
    refine ⟨holds_of_imp (fun c hc => ?_) hchar, holds_eq_of (fun c hc => ?_) hchar⟩
    · rw [Bool.and_eq_true, Cell.isCode, beq_iff_eq] at hc
      have hblank : Byte.isBlank c.byte = false := by
        by_contra hblank
        rw [isBinary_of_isBlank (by simpa using hblank)] at hc
        simp at hc
      rw [Cell.isSignificant, hc.1, hblank]
      rfl
    · by_contra hperiod
      rw [Bool.not_eq_false, Cell.isCodeChar, Bool.and_eq_true, beq_iff_eq] at hperiod
      rw [Bool.and_eq_true, hperiod.2] at hc
      exact absurd hc.2 (by decide)
  · simp at h

theorem unbroken_simpleSend {send : Send} (h : send ∈ src.simpleSends src.sendRegion) :
    src.Unbroken send.span := by
  have hadmits := (List.mem_filter.1 h).2
  rw [SendRegion.admits, Bool.and_eq_true] at hadmits
  obtain ⟨r, j, -, hsend⟩ := mem_simpleSends h
  obtain ⟨hlt, hchars⟩ : send.span.start < send.span.stop ∧
      ∀ k, send.span.start ≤ k → k < send.span.stop →
        src.isSignificant k = true ∧ src.codeAt k '.' = false := by
    rcases (sendAfter?_spelling hsend).2 with ⟨-, hword, hend⟩ | ⟨-, j', hbinary⟩
    · have hpos := hword.pos
      refine ⟨by omega, fun k hstart hstop => ?_⟩
      have hchar := hword.chars (k - send.span.start) (by omega)
      rw [Nat.add_sub_cancel' hstart] at hchar
      exact ⟨isSignificant_of_isWordChar hchar, codeAt_of_isWordChar (by decide) hchar⟩
    · exact binary_chars hbinary
  exact ⟨hadmits.1, hlt, (hchars _ (Nat.le_refl _) hlt).1, (hchars _ (by omega) (by omega)).1,
    fun k hstart hstop => endsStatement_of_not_period (hchars k hstart hstop).2⟩

theorem unbroken_of_mem_sends {send : Send} (h : send ∈ src.sends) : src.Unbroken send.span := by
  rcases mem_sends.1 h with hmem | hmem
  · rw [keywordSends_eq] at hmem
    obtain ⟨run, hrun, rfl⟩ := List.mem_map.1 hmem
    exact unbroken_keywordRun hrun
  · exact unbroken_simpleSend hmem

end Source

/-! ## Sharing out -/

/-- A list in which what satisfies `p` comes first. -/
theorem filter_append_filter_not {α : Type} {p : α → Bool} {as : List α}
    (h : as.Pairwise fun a b => p b = true → p a = true) :
    as.filter p ++ as.filter (fun a => !p a) = as := by
  induction h with
  | nil => rfl
  | @cons a as hall _ ih =>
    cases ha : p a with
    | true =>
      rw [List.filter_cons_of_pos ha, List.filter_cons_of_neg (by simp [ha]), List.cons_append, ih]
    | false =>
      have hnone : ∀ b ∈ as, p b = false := fun b hb => by
        by_contra hpb
        rw [hall b hb (by simpa using hpb)] at ha
        simp at ha
      rw [List.filter_eq_nil_iff.2 (by simpa [ha] using hnone), List.nil_append,
        List.filter_eq_self.2 (by simpa [ha] using hnone)]

/-- Spans that are apart and in order share out the sends that each lie in one of them. -/
theorem flatMap_filter_contains {spans : List Span} {sends : List Send}
    (hspans : spans.Pairwise fun a b => a.stop ≤ b.start)
    (hsorted : sends.Pairwise fun a b => a.span.start ≤ b.span.start)
    (hlt : ∀ send ∈ sends, send.span.start < send.span.stop)
    (hcover : ∀ send ∈ sends, ∃ sp ∈ spans, sp.contains send.span = true) :
    (spans.flatMap fun sp => sends.filter fun send => sp.contains send.span) = sends := by
  induction hspans generalizing sends with
  | nil =>
    cases sends with
    | nil => rfl
    | cons send sends => simpa using hcover send
  | @cons sp spans hall _ ih =>
    -- A send that starts before the end of the first span lies in it.
    have hfirst : ∀ send ∈ sends, send.span.start < sp.stop → sp.contains send.span = true := by
      intro send hsend hstart
      obtain ⟨sp', hsp', hcontains⟩ := hcover send hsend
      rcases List.mem_cons.1 hsp' with rfl | hmem
      · exact hcontains
      · have := hall sp' hmem
        have := (Span.contains_iff.1 hcontains).1
        omega
    have hcut := filter_append_filter_not (p := fun send : Send => sp.contains send.span)
      (hsorted.imp_of_mem fun {a b} ha hb hab hin => hfirst a ha (by
        have := hlt b hb
        have := (Span.contains_iff.1 hin).2
        omega))
    -- The other spans see the other sends only.
    have hrest : ∀ sp' ∈ spans, sends.filter (fun send => sp'.contains send.span) =
        (sends.filter fun send => !sp.contains send.span).filter
          fun send => sp'.contains send.span := by
      intro sp' hsp'
      rw [List.filter_filter]
      refine List.filter_congr fun send hsend => ?_
      cases hin : sp'.contains send.span with
      | false => rfl
      | true =>
        have := hall sp' hsp'
        have := hlt send hsend
        have := (Span.contains_iff.1 hin).1
        have hout : sp.contains send.span = false := by
          by_contra hin'
          have := (Span.contains_iff.1 (by simpa using hin')).2
          omega
        simp [hout]
    have hothers : ∀ send ∈ sends.filter (fun send => !sp.contains send.span),
        ∃ sp' ∈ spans, sp'.contains send.span = true := by
      intro send hsend
      obtain ⟨hmem, hout⟩ := List.mem_filter.1 hsend
      obtain ⟨sp', hsp', hcontains⟩ := hcover send hmem
      rcases List.mem_cons.1 hsp' with rfl | hsp'
      · simp [hcontains] at hout
      · exact ⟨sp', hsp', hcontains⟩
    rw [List.flatMap_cons, List.flatMap_congr hrest,
      ih (hsorted.filter _) (fun send hsend => hlt send (List.mem_filter.1 hsend).1) hothers]
    exact hcut

/-- Of spans that are apart only one holds a given send. -/
theorem countP_contains_eq_one {spans : List Span} {inner : Span}
    (hspans : spans.Pairwise fun a b => a.stop ≤ b.start) (hlt : inner.start < inner.stop)
    (hcover : ∃ sp ∈ spans, sp.contains inner = true) :
    spans.countP (·.contains inner) = 1 := by
  induction hspans with
  | nil => simp at hcover
  | @cons sp spans hall _ ih =>
    obtain ⟨sp', hsp', hcontains⟩ := hcover
    rcases List.mem_cons.1 hsp' with rfl | hmem
    · have hnone : ∀ other ∈ spans, ¬other.contains inner = true := by
        intro other hother hin
        have := hall other hother
        have := (Span.contains_iff.1 hcontains).2
        have := (Span.contains_iff.1 hin).1
        omega
      rw [List.countP_cons_of_pos (p := fun sp : Span => sp.contains inner) hcontains,
        List.countP_eq_zero.2 hnone]
    · have hout : ¬sp.contains inner = true := by
        intro hin
        have := hall sp' hmem
        have := (Span.contains_iff.1 hcontains).1
        have := (Span.contains_iff.1 hin).2
        omega
      rw [List.countP_cons_of_neg (p := fun sp : Span => sp.contains inner) hout, ih ⟨sp', hmem, hcontains⟩]

/-! ## The theorem -/

theorem pairwise_sends (src : Source) :
    src.sends.Pairwise fun a b => a.span.start ≤ b.span.start := by
  refine (Span.pairwise_mergeSort Send.span _).imp fun {a b} hle => ?_
  have := Span.le_iff.1 hle
  omega

/-- The statements of an outline lie where those of the source do, with the sends they contain. -/
theorem statements_outline (text : String) :
    (Outline.ofText text).statements.map (fun st => (st.span, st.sends)) =
      (Source.ofText text).statements.map fun st => (st.span,
        (Source.ofText text).sends.filter fun send => st.span.contains send.span) := by
  refine List.ext_getElem (by simp [Outline.ofText]) fun i h₁ h₂ => ?_
  simp [Outline.ofText, OutlineStatement.ofStatement]

/-- Every send lies in just one statement, and the sends of the statements in order are all sends. -/
theorem sends_partitioned (text : String) :
    (∀ send ∈ (Outline.ofText text).sends,
        (Outline.ofText text).statements.countP (fun st => st.span.contains send.span) = 1) ∧
      (Outline.ofText text).statements.flatMap (·.sends) = (Outline.ofText text).sends := by
  have hstatements := statements_outline text
  have hspans : ((Source.ofText text).statements.map (·.span)).Pairwise
      fun a b => a.stop ≤ b.start :=
    List.pairwise_map.2 (Source.ofText text).pairwise_statements
  have hcover : ∀ send ∈ (Source.ofText text).sends,
      ∃ sp ∈ (Source.ofText text).statements.map (·.span), sp.contains send.span = true := by
    intro send hsend
    obtain ⟨st, hst, hcontains⟩ := (Source.unbroken_of_mem_sends hsend).exists_statement
    exact ⟨st.span, List.mem_map_of_mem hst, hcontains⟩
  have hlt : ∀ send ∈ (Source.ofText text).sends, send.span.start < send.span.stop :=
    fun send hsend => (Source.unbroken_of_mem_sends hsend).lt
  constructor
  · intro send hsend
    have hcount := countP_contains_eq_one hspans (hlt send hsend) (hcover send hsend)
    have hsame : (Outline.ofText text).statements.map (·.span) =
        (Source.ofText text).statements.map (·.span) := by
      have h := congrArg (List.map Prod.fst) hstatements
      rwa [List.map_map, List.map_map] at h
    rw [← hsame, List.countP_map] at hcount
    exact hcount
  · have hsame : (Outline.ofText text).statements.map (·.sends) =
        ((Source.ofText text).statements.map (·.span)).map fun sp =>
          (Source.ofText text).sends.filter fun send => sp.contains send.span := by
      have h := congrArg (List.map Prod.snd) hstatements
      rw [List.map_map, List.map_map] at h
      rwa [List.map_map]
    rw [List.flatMap_def, hsame, ← List.flatMap_def]
    exact flatMap_filter_contains hspans (pairwise_sends _) hlt hcover

end MethodBrowser
