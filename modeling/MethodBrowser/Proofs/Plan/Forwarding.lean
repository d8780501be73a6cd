import Mathlib.Data.List.Sort
import MethodBrowser.Proofs.Plan.ExtractFaithful
import MethodBrowser.Proofs.Plan.ParameterRoundTrip
import MethodBrowser.Proofs.Send.Messages

/-!
# What a forwarder says

A forwarder is a signature, a line break and `^self` with a message (`Source.Forwards`). Whatever the
message is, statements begin with the body, no keyword comes before the message, and a keyword message is
sent to `self`.

If the message is a keyword message, all its keywords but the last have a name behind them
(`Source.Forwards.exists_message`), so they are read as one run (`Source.ForwardedMessage.tokens_eq`).
-/

namespace MethodBrowser

/-- How the body of a forwarder begins. -/
def forwarding : List Char := [' ', ' ', ' ', ' ', '^', 's', 'e', 'l', 'f', ' ']

theorem toList_forwarder (h target : Header) (arguments : List String) :
    (forwarder h target arguments).toList =
      h.render.toList ++ '\n' :: (forwarding ++ (target.renderWith arguments).toList) := by
  simp [forwarder, forwarding, indent]

namespace Source

variable {src : Source} {b i j k l m : Nat}

/-- The body starts at `b`, with `^self` and white space around it, and has no preamble. -/
structure Forwards (src : Source) (b : Nat) : Prop where
  pos : 0 < b
  reads : src.Reads b forwarding
  region : src.statementRegion = ⟨b, src.size⟩

/-! ## The opening -/

theorem not_codeAt_of_calm_or_caret {x : Char} (hident : Byte.isIdent x.toUInt8 = false)
    (hblank : Byte.isBlank x.toUInt8 = false) (hcolon : ':'.toUInt8 ≠ x.toUInt8)
    (hcaret : '^'.toUInt8 ≠ x.toUInt8) (h : src.Calm k ∨ src.codeAt k '^' = true) :
    src.codeAt k x = false :=
  h.elim (fun hcalm => hcalm.codeAt hident hblank hcolon) (codeAt_ne hcaret)

theorem idle_of_isGap (h : ∀ k, i ≤ k → k < j → src.holds Cell.isGap k = true) : src.Idle i j := by
  intro k hik hkj
  refine holds_eq_of (fun c hc => ?_) (h k hik hkj)
  rw [Cell.isGap, Cell.isCode, Bool.and_eq_true, beq_iff_eq] at hc
  simp [Cell.isSignificant, hc]

namespace Reads

variable (h : src.Reads b forwarding)
include h

theorem indent (hbk : b ≤ k) (hk : k < b + 4) : src.holds Cell.isGap k = true :=
  (left (w := [' ', ' ', ' ', ' ']) h).holds (forall_of_all (by decide)) hbk hk

theorem caret : src.codeAt (b + 4) '^' = true := (right (w := [' ', ' ', ' ', ' ']) h).head

theorem isGap_self : src.holds Cell.isGap (b + 9) = true :=
  isGap_of_space (right (w := [' ', ' ', ' ', ' ', '^', 's', 'e', 'l', 'f']) h).head

theorem isWord_self : src.IsWord (b + 5) 4 :=
  ((right (w := [' ', ' ', ' ', ' ', '^']) h).left (w := ['s', 'e', 'l', 'f'])).isWord (by decide)
    (isWordStart_of_codeAt (by decide) h.caret)
    (isWordEnd_of_codeAt (x := ' ') (by decide)
      (right (w := [' ', ' ', ' ', ' ', '^', 's', 'e', 'l', 'f']) h).head)

theorem slice_self : src.slice ⟨b + 5, b + 9⟩ = "self" :=
  ((right (w := [' ', ' ', ' ', ' ', '^']) h).left (w := ['s', 'e', 'l', 'f'])).slice

/-- The opening is calm but for the caret, and so is all up to `l` if the message is calm up to there. -/
theorem calm_or_caret (hcalm : ∀ k, b + 10 ≤ k → k < l → src.Calm k) (hbk : b ≤ k) (hk : k < l) :
    src.Calm k ∨ src.codeAt k '^' = true := by
  rcases Nat.lt_or_ge k (b + 10) with hlt | hge
  · rcases Nat.lt_trichotomy k (b + 4) with hlt' | rfl | hgt
    · exact .inl (.inr (.inl (h.indent hbk hlt')))
    · exact .inr h.caret
    · exact .inl ((right (w := [' ', ' ', ' ', ' ', '^']) h).calm (forall_of_all (by decide)) hgt hlt)
  · exact .inl (hcalm k hge hk)

/-- No keyword stands in the opening. -/
theorem keywordAt?_eq_none (hbk : b ≤ k) (hk : k < b + 10) (hl : b + 9 ≤ l) :
    src.keywordAt? k l = none := by
  have hself := h.isWord_self
  have hgap := h.isGap_self
  rcases Nat.lt_or_ge k (b + 5) with hlt | hge
  · refine keywordAt?_of_not_isLetter ?_
    rcases Nat.eq_or_lt_of_le (Nat.le_of_lt_succ hlt) with rfl | hlt'
    · exact not_isLetter_of_codeAt (by decide) h.caret
    · exact not_isLetter_of_isGap (h.indent hbk hlt')
  · rcases Nat.eq_or_lt_of_le hge with rfl | hlt
    · exact keywordAt?_of_not_colon (hself.wordAt?_eq_some hl) (not_codeAt_of_isGap (by decide) hgap)
    · rcases Nat.eq_or_lt_of_le (Nat.le_of_lt_succ hk) with rfl | hlt'
      · exact keywordAt?_of_not_isLetter (not_isLetter_of_isGap hgap)
      · exact (hself.inner (Span.mem_offsets.2 ⟨hlt, hlt'⟩)).keywordAt?

/-- A keyword message behind the opening is sent to `self`. -/
theorem keywordReceiver : src.keywordReceiver (b + 10) b = .self := by
  have hself := h.isWord_self
  have hback : src.skipGapBack (b + 10) b = b + 9 := by
    refine runStart_eq (by omega) (by omega) (fun k hk hk' => ?_) fun _ => ?_
    · obtain rfl : k = b + 9 := by omega
      exact h.isGap_self
    · exact not_isGap_of_isSignificant (isSignificant_of_isWordChar hself.last)
  have hchars : ∀ k, b + 5 ≤ k → k < b + 9 → src.holds Cell.isWordChar k = true :=
    fun _ => hself.isWordChar
  have hstart : src.runStart (fun c => Byte.isIdent c.byte) (b + 9) b = b + 5 := by
    refine runStart_eq (by omega) (by omega) (fun k hk hk' => ?_) fun _ => ?_
    · exact holds_of_imp (fun _ => Cell.isIdent_of_isWordChar) (hchars k hk hk')
    · refine holds_eq_of (fun c hc => ?_) h.caret
      rw [Cell.isCodeChar, Bool.and_eq_true, beq_iff_eq] at hc
      rw [hc.2]
      decide
  have hcode : src.isCode (b + 8) = true := holds_of_imp (fun c hc => by
    rw [Cell.isWordChar, Bool.and_eq_true] at hc
    exact hc.1) (hchars (b + 8) (by omega) (by omega))
  have hsemi : src.codeAt (b + 8) ';' = false :=
    codeAt_of_isWordChar (by decide) (hchars (b + 8) (by omega) (by omega))
  have hword := hself.left
  simp only [Source.keywordReceiver, hback, hstart, show b + 9 - 1 = b + 8 from rfl, hcode,
    hsemi, hword, h.slice_self]
  simp [Receiver.ofWord]

/-- The only send in the opening is the one that follows `self`. -/
theorem receiverSendsFrom (hl : b + 10 ≤ l) :
    src.receiverSendsFrom b l = (src.sendAfter? .self (b + 9) l).toList ++
      src.receiverSendsFrom (b + 10) l := by
  have hgap : ∀ k, b ≤ k → k < b + 4 → src.receiverSendsFrom k l = src.receiverSendsFrom (k + 1) l :=
    fun k hbk hk => receiverSendsFrom_of_none (receiverAt?_of_isGap (h.indent hbk hk))
  have hself := receiverAt?_of_wordAt? (h.isWord_self.wordAt?_eq_some (l := l) (by omega))
    (not_codeAt_of_isGap (by decide) h.isGap_self)
  rw [h.slice_self] at hself
  rw [hgap b (by omega) (by omega), hgap (b + 1) (by omega) (by omega), hgap (b + 2) (by omega) (by omega),
    hgap (b + 3) (by omega) (by omega),
    receiverSendsFrom_of_none (receiverAt?_of_codeAt (by decide) (by decide) h.caret),
    receiverSendsFrom_of_some (by omega) hself,
    receiverSendsFrom_of_none (receiverAt?_of_isGap h.isGap_self)]
  rfl

end Reads

/-- A body can be read apart from the signature before it. -/
theorem cut_body (src : Source) {line rest : List Char} (hline : ∀ c ∈ line, Header.isSignatureChar c = true)
    (htext : src.text.toList = line ++ '\n' :: rest) :
    src.Cut (line ++ ['\n']) rest ∧ String.utf8Len (line ++ ['\n']) = line.length + 1 := by
  have hplain : ∀ c ∈ line ++ ['\n'], IsPlain c := List.forall_mem_append.2
    ⟨fun c hc => (Header.isPlain_of_isSignatureChar (hline c hc)).1, forall_of_all (by decide)⟩
  refine ⟨⟨by rw [htext]; simp, fun _ => after_of_plain hplain⟩, ?_⟩
  rw [utf8Len_of_ascii fun c hc => (hplain c hc).1, List.length_append, List.length_singleton]

/-- The body of a forwarder opens with neither pragmas nor temporaries. -/
theorem forwards_of_text (src : Source) {line rest : List Char}
    (hline : ∀ c ∈ line, Header.isSignatureChar c = true)
    (htext : src.text.toList = line ++ '\n' :: (forwarding ++ rest)) : src.Forwards (line.length + 1) := by
  obtain ⟨hcut, hlen⟩ := cut_body src hline htext
  have hreads := hcut.reads (forall_of_all (by decide))
  rw [hlen] at hreads
  have hbody : src.bodyStart = line.length + 1 := by
    rw [bodyStart_of_newline htext (Header.newline_not_mem hline), Header.utf8Len_signature hline]
  have hskip : src.skipTrivia src.bodyStart = line.length + 5 := by
    rw [hbody]
    exact (idle_of_isGap fun k => hreads.indent).skipTrivia (by omega) (by decide) hreads.caret
  have hpragma : src.pragmaAt? (src.skipTrivia src.bodyStart) = none := by
    rw [hskip, pragmaAt?, codeAt_ne (by decide) hreads.caret]
    rfl
  have htemps : src.temporariesAt? (line.length + 5) = none := by
    rw [temporariesAt?, codeAt_ne (by decide) hreads.caret]
    rfl
  have hnone : src.NoPreamble := by
    constructor <;> simp [preamble, pragmasFrom_of_none hpragma, hskip, htemps]
  refine ⟨Nat.succ_pos _, hreads, ?_⟩
  rw [← hbody, ← hnone.start_eq, statementRegion]

namespace Forwards

variable (h : src.Forwards b)
include h

theorem region_start : src.sendRegion.span.start = b := by rw [sendRegion, h.region]

/-! ## One statement -/

/-- The body is one statement if no period ends it. -/
theorem statements_eq (hlast : src.isSignificant (src.size - 1) = true) (hsize : b + 5 ≤ src.size)
    (hwhole : ∀ k, b ≤ k → k < src.size → src.endsStatement .empty b k = false) :
    src.statements = [⟨⟨b + 4, src.size⟩, .returns⟩] := by
  have hidle : src.Idle b (b + 4) := idle_of_isGap fun k => h.reads.indent
  have hsentence : src.Sentence ⟨b + 4, src.size⟩ :=
    .of_idle (Nat.le_add_right b 4) hidle hsize
      (isSignificant_of_codeAt (by decide) h.reads.caret) hlast hwhole
  have hlayout : src.Layout src.size b [⟨b + 4, src.size⟩] :=
    .last (Nat.le_add_right b 4) hidle hsentence (Nat.le_refl _) (src.idle_self _)
  rw [statements, h.region, hlayout.statementsIn_eq (Nat.le_refl _), List.map_singleton, statementKind,
    if_pos h.reads.caret]

/-- Calm code is one statement. -/
theorem statements_of_calm (hcalm : ∀ k, b ≤ k → k < src.size → src.Calm k ∨ src.codeAt k '^' = true)
    (hlast : src.isSignificant (src.size - 1) = true) (hsize : b + 5 ≤ src.size) :
    src.statements = [⟨⟨b + 4, src.size⟩, .returns⟩] := by
  refine h.statements_eq hlast hsize fun k hbk hk => endsStatement_of_not_period ?_
  exact not_codeAt_of_calm_or_caret (by decide) (by decide) (by decide) (by decide) (hcalm k hbk hk)

/-! ## Unary messages -/

/-- Up to its end the body is calm but for the caret, if a name is the message. -/
theorem calm_or_caret {n : Nat} (hname : src.IsWord (b + 10) n) (hend : b + 10 + n = src.size)
    (hbk : b ≤ k) (hk : k < src.size) : src.Calm k ∨ src.codeAt k '^' = true :=
  h.reads.calm_or_caret (fun _ hik hk => .inl (hname.isWordChar hik (hend ▸ hk))) hbk hk

theorem codeAt {x : Char} (hident : Byte.isIdent x.toUInt8 = false)
    (hblank : Byte.isBlank x.toUInt8 = false) (hcolon : ':'.toUInt8 ≠ x.toUInt8)
    (hcaret : '^'.toUInt8 ≠ x.toUInt8) {n : Nat} (hname : src.IsWord (b + 10) n)
    (hend : b + 10 + n = src.size) (hbk : b ≤ k) : src.codeAt k x = false := by
  rcases Nat.lt_or_ge k src.size with hlt | hge
  · exact not_codeAt_of_calm_or_caret hident hblank hcolon hcaret (h.calm_or_caret hname hend hbk hlt)
  · exact holds_of_size_le hge

/-- A name as the message is the only send. -/
theorem sends_eq {n : Nat} (hname : src.IsWord (b + 10) n) (hend : b + 10 + n = src.size) :
    src.sends = [⟨src.slice ⟨b + 10, src.size⟩, .unary, .self, ⟨b + 10, src.size⟩, 1⟩] := by
  have hpos := hname.pos
  have hcolon : src.codeAt (b + 10 + n) ':' = false := holds_of_size_le (by omega)
  have hword : src.wordAt? (b + 10) src.size = some ⟨b + 10, src.size⟩ := by
    rw [hname.wordAt?_eq_some (Nat.le_of_eq hend), hend]
  have hkeywords : src.keywords ⟨b, src.size⟩ = [] := List.filterMap_eq_nil_iff.2 fun i hi => by
    obtain ⟨hbi, his⟩ := Span.mem_offsets.1 hi
    change src.keywordAt? i src.size = none
    simp only at hbi his
    rcases Nat.lt_or_ge i (b + 10) with hlt | hge
    · exact h.reads.keywordAt?_eq_none hbi hlt (by omega)
    · exact hname.keywordAt?_eq_none hcolon (Nat.le_of_eq hend) hge (by omega)
  have hskip : src.skipGap (b + 9) src.size = b + 10 := by
    rw [skipGap, runEnd_of_holds (by omega) h.reads.isGap_self, runEnd_of_not_holds
      (not_isGap_of_isSignificant (isSignificant_of_isWordChar (hname.chars 0 hpos)))]
  have hsend : src.sendAfter? .self (b + 9) src.size =
      some ⟨src.slice ⟨b + 10, src.size⟩, .unary, .self, ⟨b + 10, src.size⟩, 1⟩ := by
    rw [hend] at hcolon
    simp [sendAfter?, hskip, hword, hcolon]
  have hreceivers : src.receiverSendsFrom b src.size =
      [⟨src.slice ⟨b + 10, src.size⟩, .unary, .self, ⟨b + 10, src.size⟩, 1⟩] := by
    rw [h.reads.receiverSendsFrom (by omega), hsend, receiverSendsFrom_of_some (by omega)
      (receiverAt?_of_wordAt? hword (by rw [← hend]; exact hcolon)), src.sendAfter?_limit,
      receiverSendsFrom_of_le (Nat.le_refl _)]
    rfl
  have hcascades : src.cascadeSendsAt src.size .empty (Span.offsets ⟨b, src.size⟩) = [] :=
    cascadeSendsAt_eq_nil fun i hi => h.codeAt (by decide) (by decide) (by decide) (by decide) hname hend
      (Span.mem_offsets.1 hi).1
  have hexcluded : (src.regionFrom b).excluded = [] :=
    excluded_eq_nil (fun i => h.codeAt (by decide) (by decide) (by decide) (by decide) hname hend)
      fun i => h.codeAt (by decide) (by decide) (by decide) (by decide) hname hend
  have hregion : src.sendRegion = src.regionFrom b := by rw [sendRegion_eq, h.region]
  have hspan : (src.regionFrom b).span = ⟨b, src.size⟩ := rfl
  have hadmits : (src.regionFrom b).admits ⟨b + 10, src.size⟩ = true := by
    simp [SendRegion.admits, hexcluded, hspan, Span.contains]
  have hruns : src.keywordRuns (src.regionFrom b) = [] := by
    rw [keywordRuns, hspan, hkeywords]
    rfl
  have hsimple : src.simpleSends (src.regionFrom b) =
      [⟨src.slice ⟨b + 10, src.size⟩, .unary, .self, ⟨b + 10, src.size⟩, 1⟩] := by
    simp [simpleSends, hspan, hreceivers, hcascades, hadmits]
  simp only [sends, hregion, keywordSends_eq, hruns, hsimple, List.map_nil, List.nil_append]
  exact List.mergeSort_singleton ..

end Forwards

/-! ## Keyword messages -/

theorem eq_singleton_of_pairwise {α : Type} {r : α → α → Prop} {as : List α} {a : α} (h : as.Pairwise r)
    (ha : a ∈ as) (hr : ¬r a a) (hall : ∀ x ∈ as, x = a) : as = [a] := by
  match as, h with
  | [], _ => simp at ha
  | [x], _ => rw [hall x List.mem_cons_self]
  | x :: y :: _, h =>
    obtain rfl := hall x (by simp)
    obtain rfl := hall y (by simp)
    exact absurd ((List.pairwise_cons.1 h).1 _ List.mem_cons_self) hr

/-- Behind `^self` stand keywords with names and then, at `j`, one more keyword. -/
structure ForwardedMessage (src : Source) (b : Nat) (tokens : List Span) (j m : Nat) : Prop where
  forwards : src.Forwards b
  phrases : src.Phrases (b + 10) tokens j
  last : src.KeywordAt j m
  calm : ∀ k, b + 10 ≤ k → k < j + m + 2 → src.Calm k
  le_size : j + m + 2 ≤ src.size

namespace ForwardedMessage

variable {tokens : List Span} (h : src.ForwardedMessage b tokens j m)
include h

theorem exists_first : ∃ m', src.KeywordAt (b + 10) m' ∧ b + 10 + m' ≤ j + m :=
  h.phrases.exists_keywordAt h.last

/-- Up to the last argument the body is calm but for the caret. -/
theorem calm_or_caret {k : Nat} (hbk : b ≤ k) (hk : k < j + m + 2) :
    src.Calm k ∨ src.codeAt k '^' = true :=
  h.forwards.reads.calm_or_caret h.calm hbk hk

theorem codeAt {x : Char} (hident : Byte.isIdent x.toUInt8 = false)
    (hblank : Byte.isBlank x.toUInt8 = false) (hcolon : ':'.toUInt8 ≠ x.toUInt8)
    (hcaret : '^'.toUInt8 ≠ x.toUInt8) {k : Nat} (hbk : b ≤ k) (hk : k < j + m + 2) :
    src.codeAt k x = false :=
  not_codeAt_of_calm_or_caret hident hblank hcolon hcaret (h.calm_or_caret hbk hk)

/-- The first keyword is outside of what is left out. -/
theorem admits {m' : Nat} (hfirst : src.KeywordAt (b + 10) m') (hle : b + 10 + m' ≤ j + m) :
    src.sendRegion.admits ⟨b + 10, b + 10 + m' + 1⟩ = true := by
  have hsize := h.le_size
  have hstart : src.sendRegion.span.start ≤ (Span.mk (b + 10) (b + 10 + m' + 1)).start := by
    rw [h.forwards.region_start]
    exact Nat.le_add_right b 10
  refine (admits_keyword_iff hstart (hfirst.keywordAt? (l := src.size) (by omega))).2 fun array harray => ?_
  -- A literal array starts with a sign that the keywords and names do not have.
  have hopens := (mem_literalArraysFrom harray).1
  have hfrom : b ≤ array.start := by
    have hle := le_start_of_mem_literalArraysFrom harray
    rwa [h.forwards.region_start] at hle
  rw [opensArray, Bool.and_eq_true] at hopens
  refine Span.overlaps_of_ge (Nat.le_of_not_lt fun hlt => ?_)
  rw [h.codeAt (by decide) (by decide) (by decide) (by decide) hfrom (by simp only at hlt; omega)] at hopens
  simp at hopens

theorem levelTail_eq (hquiet : src.levelTail .empty (j + m + 2) src.size = []) :
    src.levelTail .empty (b + 10) src.size = tokens ++ [⟨j, j + m + 1⟩] := by
  have hsize := h.le_size
  rw [h.phrases.levelTail (by omega), h.last.levelTail hsize, hquiet]

/-- The keywords are a run if the last argument has none on its level. -/
theorem exists_run (hquiet : src.levelTail .empty (j + m + 2) src.size = []) :
    ∃ run ∈ src.keywordRuns src.sendRegion, run.tokens = tokens ++ [⟨j, j + m + 1⟩] ∧
      run.receiver = .self ∧ run.span.start = b + 10 ∧
      run.selector = String.join ((tokens ++ [Span.mk j (j + m + 1)]).map src.slice) := by
  have hsize := h.le_size
  have hj := h.phrases.le
  obtain ⟨m', hfirst, hle⟩ := h.exists_first
  have hkeyword : src.keywordAt? (b + 10) src.size = some ⟨b + 10, b + 10 + m' + 1⟩ :=
    hfirst.keywordAt? (by omega)
  have htokens : (src.keywordRun src.sendRegion ⟨b + 10, b + 10 + m' + 1⟩).tokens = _ :=
    (tokens_keywordRun hkeyword).trans (h.levelTail_eq hquiet)
  have hlisted : (⟨b + 10, b + 10 + m' + 1⟩ : Span) ∈ src.keywords src.sendRegion.span := by
    refine List.mem_filterMap.2 ⟨b + 10, Span.mem_offsets.2 ⟨?_, (by omega : b + 10 < src.size)⟩, hkeyword⟩
    rw [h.forwards.region_start]
    omega
  obtain ⟨run, hrun, hmem⟩ := exists_mem_runsOf (fun token ht => (keywordAt?_of_mem_keywords ht).2)
    hlisted (h.admits hfirst hle) List.not_mem_nil
  obtain ⟨first, hstart, hregion, heq, -⟩ := mem_keywordRuns hrun
  rw [heq] at hmem
  rw [h.forwards.region_start] at hregion
  -- The run with the first keyword starts with it, because there is none before.
  have hfirst' := (mem_keywordRun_tokens hstart hmem).1
  simp only at hfirst'
  rcases Nat.lt_or_ge first.start (b + 10) with hlt | hge
  · have hnone := h.forwards.reads.keywordAt?_eq_none hregion hlt (l := src.size) (by omega)
    exact absurd (hnone.symm.trans hstart) (by simp)
  · have hsame : first.start = b + 10 := by omega
    rw [hsame] at hstart
    obtain rfl : first = ⟨b + 10, b + 10 + m' + 1⟩ := Option.some.inj (hstart.symm.trans hkeyword)
    have hspan : (src.keywordRun src.sendRegion ⟨b + 10, b + 10 + m' + 1⟩).span.start = b + 10 :=
      (keywordRun_span_bounds hstart).1
    refine ⟨run, hrun, by rw [heq, htokens], ?_, heq ▸ hspan, by rw [← htokens, heq]; rfl⟩
    rw [heq, keywordRun, h.forwards.region_start]
    exact h.forwards.reads.keywordReceiver

/-- If the last argument is calm, too, there is no other run. -/
theorem keywordRuns_eq (hquiet : src.levelTail .empty (j + m + 2) src.size = [])
    (hcalm : ∀ k, b + 10 ≤ k → k < src.size → src.Calm k) :
    ∃ run, src.keywordRuns src.sendRegion = [run] ∧ run.tokens = tokens ++ [⟨j, j + m + 1⟩] ∧
      run.receiver = .self ∧ run.span.start = b + 10 ∧
      run.selector = String.join ((tokens ++ [Span.mk j (j + m + 1)]).map src.slice) := by
  have hsize := h.le_size
  have hj := h.phrases.le
  obtain ⟨run, hrun, htokens, hrest⟩ := h.exists_run hquiet
  refine ⟨run, eq_singleton_of_pairwise (src.keywordRuns_disjoint _) hrun (fun hdisjoint => ?_)
    fun other hother => ?_, htokens, hrest⟩
  · have hlast : (⟨j, j + m + 1⟩ : Span) ∈ run.tokens := by simp [htokens]
    exact hdisjoint _ hlast _ hlast rfl
  · obtain ⟨first, hkeyword, hregion, heq, -⟩ := mem_keywordRuns hother
    rw [h.forwards.region_start] at hregion
    have hstart : b + 10 ≤ first.start := by
      by_contra hlt
      have hnone := h.forwards.reads.keywordAt?_eq_none hregion (Nat.lt_of_not_le hlt) (l := src.size)
        (by omega)
      exact absurd (hnone.symm.trans hkeyword) (by simp)
    have hstop : first.start < src.size := (wordAt?_eq_some (keywordAt?_eq_some hkeyword).choose_spec.1).1
    have hmem : first ∈ run.tokens := by
      rw [htokens, ← h.levelTail_eq hquiet]
      exact mem_levelTail_of_calm hstart (fun k hk hkf => hcalm k hk (by omega)) hkeyword
    have hhead : first ∈ other.tokens := heq ▸ List.mem_cons_self
    exact eq_of_start_eq hother hrun hhead hmem rfl

/-- If the last argument is a name, the whole message is calm. -/
theorem calm_of_name {n : Nat} (hname : src.IsWord (j + m + 2) n) (hend : j + m + 2 + n = src.size) :
    ∀ k, b + 10 ≤ k → k < src.size → src.Calm k := fun k hk hks => by
  rcases Nat.lt_or_ge k (j + m + 2) with hlt | hge
  · exact h.calm k hk hlt
  · exact .inl (hname.isWordChar hge (hend ▸ hks))

/-- If the last argument is a name, the message is the only send. -/
theorem sends_eq {k : Nat} (hname : src.IsWord (j + m + 2) k) (hend : j + m + 2 + k = src.size) :
    ∃ send, src.sends = [send] ∧ send.receiver = .self ∧
      send.selector = String.join ((tokens ++ [Span.mk j (j + m + 1)]).map src.slice) := by
  have hj := h.phrases.le
  have hcolon : src.codeAt (j + m + 2 + k) ':' = false := holds_of_size_le (by omega)
  have hcalm := h.calm_of_name hname hend
  have hquiet : src.levelTail .empty (j + m + 2) src.size = [] := by
    rw [hname.levelTail hcolon (Nat.le_of_eq hend), levelTail_of_le (by omega)]
  obtain ⟨run, hruns, -, hreceiver, -, hselector⟩ := h.keywordRuns_eq hquiet hcalm
  have hreceivers : src.receiverSendsFrom b src.size = [] := by
    obtain ⟨m', hfirst, hle⟩ := h.exists_first
    have hpos := hname.pos
    rw [h.forwards.reads.receiverSendsFrom (by omega), hfirst.sendAfter?_eq_none (by omega),
      h.phrases.receiverSendsFrom h.last (by omega), h.last.receiverSendsFrom (by omega),
      receiverSendsFrom_of_some (by omega)
        (receiverAt?_of_wordAt? (hname.wordAt?_eq_some (Nat.le_of_eq hend)) hcolon), hend,
      src.sendAfter?_limit, receiverSendsFrom_of_le (Nat.le_refl _)]
    rfl
  have hcascades : src.cascadeSendsAt src.size .empty (Span.offsets ⟨b, src.size⟩) = [] := by
    refine cascadeSendsAt_eq_nil fun i hi => ?_
    obtain ⟨hbi, his⟩ := Span.mem_offsets.1 hi
    exact not_codeAt_of_calm_or_caret (by decide) (by decide) (by decide) (by decide)
      (h.forwards.reads.calm_or_caret hcalm hbi his)
  have hsimple : src.simpleSends src.sendRegion = [] := by
    rw [simpleSends, sendRegion, h.forwards.region]
    simp only [hreceivers, hcascades, List.append_nil, List.filter_nil]
  refine ⟨run.toSend, ?_, hreceiver, hselector⟩
  simp only [sends, keywordSends_eq, hruns, hsimple, List.map_singleton, List.append_nil]
  exact List.mergeSort_singleton ..

end ForwardedMessage

/-- A keyword message is read as it is written, with any text in the place of its last argument. -/
theorem Forwards.exists_message (src : Source) {line w last : List Char}
    {pairs : List (List Char × List Char)}
    (hline : ∀ c ∈ line, Header.isSignatureChar c = true)
    (hpairs : ∀ p ∈ pairs, isIdentifier p.1 = true ∧ isIdentifier p.2 = true)
    (hw : isIdentifier w = true)
    (htext : src.text.toList =
      line ++ '\n' :: (forwarding ++ (pairs.flatMap phrase ++ (w ++ [':', ' '] ++ last)))) :
    ∃ tokens j, src.ForwardedMessage (line.length + 1) tokens j w.length ∧
      (tokens ++ [Span.mk j (j + w.length + 1)]).map src.slice =
        (pairs.map Prod.fst ++ [w]).map keywordText ∧
      ∃ front, src.Cut front last ∧ String.utf8Len front = j + w.length + 2 := by
  have hforwards := forwards_of_text src hline htext
  have hphrases := mem_phrases hpairs
  have hplain : ∀ c ∈ forwarding ++ (pairs.flatMap phrase ++ (w ++ [':', ' '])), IsPlain c := by
    refine List.forall_mem_append.2 ⟨forall_of_all (by decide), List.forall_mem_append.2 ⟨fun c hc => ?_,
      List.forall_mem_append.2 ⟨fun c hc => ?_, forall_of_all (by decide)⟩⟩⟩
    · rcases hphrases c hc with hident | rfl | rfl
      · exact isPlain_of_isIdentRest hident
      · decide
      · decide
    · exact isPlain_of_isIdentRest (isIdentRest_of_isIdentifier hw c hc)
  have hbodytext : src.text.toList =
      line ++ '\n' :: (forwarding ++ (pairs.flatMap phrase ++ (w ++ [':', ' '])) ++ last) := by
    rw [htext]
    simp
  obtain ⟨hcut, hbody⟩ := cut_body src hline hbodytext
  have hreads := hcut.reads hplain
  rw [hbody] at hreads
  have hmessage := hreads.right
  obtain ⟨⟨tokens, htokens, hslices⟩, hgap⟩ := hmessage.left.exists_phrases hpairs (Nat.succ_pos _)
    (by exact hforwards.reads.isGap_self)
  obtain ⟨hlast, hslice⟩ := hmessage.right.keywordAt hw (by omega) hgap
  have hlen : String.utf8Len (line ++ ['\n'] ++ (forwarding ++ (pairs.flatMap phrase ++ (w ++ [':', ' '])))) =
      line.length + 11 + (pairs.flatMap phrase).length + w.length + 2 := by
    have hopening : forwarding.length = 10 := rfl
    rw [String.utf8Len_append, hbody, utf8Len_of_ascii fun c hc => (hplain c hc).1]
    simp only [List.length_append, List.length_cons, List.length_nil, hopening]
    omega
  refine ⟨tokens, _, ⟨hforwards, htokens, hlast, fun k hk hkl => ?_, ?_⟩, ?_, _,
    hcut.after fun _ => after_of_plain hplain, hlen⟩
  · refine hmessage.calm (fun c hc => ?_) hk ?_
    · rcases List.mem_append.1 hc with hc | hc
      · exact hphrases c hc
      · rcases List.mem_append.1 hc with hc | hc
        · exact .inl (isIdentRest_of_isIdentifier hw c hc)
        · exact .inr (by simpa [or_comm] using hc)
    · simp only [List.length_append, List.length_cons, List.length_nil]
      omega
  · have hsize := (hcut.after fun _ => after_of_plain hplain).size
    rw [hlen] at hsize
    have hopening : forwarding.length = 10 := rfl
    omega
  · rw [List.map_append, List.map_append, List.map_map, hslices, List.map_singleton, List.map_singleton,
      hslice]
    rfl

end Source

/-! ## Messages of a signature -/

namespace Header

open Source (keywordText phrase)

variable {h target : Header} {ws : List (List Char)} {w : List Char} {names : List String} {last : String}

theorem keywordsOf_eq (words : List (List Char)) :
    Selector.keywordsOf words = words.map keywordText := by
  rw [Selector.keywordsOf, Selector.withColons, List.map_map]
  rfl

theorem toList_phrases (hlen : names.length = ws.length) :
    (String.intercalate " " ((((ws ++ [w]).map keywordText).zip (names ++ [last])).map
        fun p => p.1 ++ " " ++ p.2)).toList =
      (ws.zip (names.map String.toList)).flatMap phrase ++ (w ++ [':', ' '] ++ last.toList) := by
  induction ws generalizing names with
  | nil =>
    obtain rfl := List.length_eq_zero_iff.1 hlen
    simp [keywordText]
  | cons v ws ih =>
    obtain ⟨name, names, rfl⟩ := List.exists_cons_of_length_eq_add_one hlen
    have hlen' : names.length = ws.length := Nat.succ.inj hlen
    have hrest := ih hlen'
    -- Something follows the first phrase, so a space stands between the two.
    obtain ⟨p, ps, hps⟩ : ∃ p ps, (((ws ++ [w]).map keywordText).zip (names ++ [last])).map
        (fun p => p.1 ++ " " ++ p.2) = p :: ps :=
      List.exists_cons_of_ne_nil (by simp)
    rw [hps] at hrest
    simp only [List.cons_append, List.map_cons, List.zip_cons_cons, hps, String.intercalate_cons_cons,
      String.toList_append, hrest, List.flatMap_cons]
    simp [phrase, keywordText]

theorem isIdentifier_of_mem_zip (hws : ∀ w ∈ ws, MethodBrowser.isIdentifier w = true)
    (hnames : ∀ a ∈ names, MethodBrowser.isIdentifier a.toList = true) :
    ∀ p ∈ ws.zip (names.map String.toList),
      MethodBrowser.isIdentifier p.1 = true ∧ MethodBrowser.isIdentifier p.2 = true := by
  intro p hp
  obtain ⟨hw, ha⟩ := List.of_mem_zip hp
  obtain ⟨name, hname, heq⟩ := List.mem_map.1 ha
  exact ⟨hws _ hw, heq ▸ hnames name hname⟩

theorem toList_renderWith (hkind : target.kind = .keyword)
    (hparts : target.parts = Selector.keywordsOf (ws ++ [w])) (hlen : names.length = ws.length) :
    (target.renderWith (names ++ [last])).toList =
      (ws.zip (names.map String.toList)).flatMap phrase ++ (w ++ [':', ' '] ++ last.toList) := by
  simp only [renderWith, hkind, hparts, keywordsOf_eq]
  exact toList_phrases hlen

end Header

/-- A name at the end of a text is a word, if white space stands before it. -/
theorem Source.Cut.isWord_last {src : Source} {front name : List Char} (h : src.Cut front name)
    (hname : isIdentifier name = true) {i : Nat} (hi : String.utf8Len front = i + 1)
    (hgap : src.holds Cell.isGap i = true) :
    src.IsWord (i + 1) name.length ∧ i + 1 + name.length = src.size ∧
      src.slice ⟨i + 1, src.size⟩ = String.ofList name := by
  have hplain : ∀ c ∈ name, IsPlain c := fun c hc =>
    isPlain_of_isIdentRest (isIdentRest_of_isIdentifier hname c hc)
  have hsize : i + 1 + name.length = src.size := by
    rw [h.size, hi, utf8Len_of_isIdentifier hname]
  have hreads : src.Reads (i + 1) name := by
    rw [← hi]
    exact Source.Cut.reads (r := []) (by rwa [List.append_nil]) hplain
  have hstart : src.isWordStart (i + 1) = true := by
    rw [Source.isWordStart, Nat.add_sub_cancel,
      Source.byte_ne_of_isGap (fun _ => Cell.isBlank_eq_false_of_isIdent) hgap, Bool.not_false, Bool.or_true]
  have hend : src.byteIs Byte.isIdent (i + 1 + name.length) = false := Source.holds_of_size_le (by omega)
  exact ⟨hreads.isWord hname hstart (by rw [Source.isWordEnd, hend]; rfl), hsize, hsize ▸ hreads.slice⟩

/-- A signature forwarded to a name or to keywords with names is one return with one send. -/
theorem forwarder_sends {h target : Header} (hwf : h.WellFormed) (htarget : target.WellFormed)
    (hkind : target.kind ≠ .binary) :
    let src := Source.ofText (forwarder h target target.arguments)
    (∃ st, src.statements = [st] ∧ st.kind = .returns) ∧
      ∃ send, src.sends = [send] ∧ send.selector = target.selector ∧ send.receiver = .self := by
  intro src
  have hline : ∀ c ∈ h.render.toList, Header.isSignatureChar c = true := fun c hc =>
    (Header.mem_render hwf hc).1
  have htext := toList_forwarder h target target.arguments
  cases hk : target.kind with
  | binary => exact absurd hk hkind
  | unary =>
    have hident := htarget.kind
    rw [hk, Selector.kind?_eq_unary_iff] at hident
    have hmessage : target.renderWith target.arguments = target.selector := by
      simp only [Header.renderWith, hk]
    rw [hmessage] at htext
    have hforwards := Source.forwards_of_text src hline htext
    obtain ⟨hcut, hbody⟩ := Source.cut_body src hline htext
    have hopening : ∀ c ∈ forwarding, IsPlain c := forall_of_all (by decide)
    have hfront : String.utf8Len (h.render.toList ++ ['\n'] ++ forwarding) =
        h.render.toList.length + 1 + 9 + 1 := by
      rw [String.utf8Len_append, hbody, utf8Len_of_ascii fun c hc => (hopening c hc).1]
      rfl
    obtain ⟨hname, hend, hslice⟩ := (hcut.after fun _ => after_of_plain hopening).isWord_last hident hfront
      hforwards.reads.isGap_self
    rw [String.ofList_toList] at hslice
    have hpos := hname.pos
    refine ⟨⟨_, hforwards.statements_of_calm (fun k => hforwards.calm_or_caret hname hend) ?_ ?_, rfl⟩, _,
      hforwards.sends_eq hname hend, hslice, rfl⟩
    · rw [← hend]
      exact Source.isSignificant_of_isWordChar hname.last
    · omega
  | keyword =>
    obtain ⟨words, hne, hwords, hparts, hlen⟩ := htarget.exists_words hk
    obtain ⟨ws, w, rfl⟩ : ∃ ws w, words = ws ++ [w] :=
      ⟨_, _, (List.dropLast_append_getLast hne).symm⟩
    obtain ⟨names, last, hnames⟩ : ∃ names last, target.arguments = names ++ [last] := by
      have hsome : target.arguments ≠ [] := fun hnil => by simp [hnil] at hlen
      exact ⟨_, _, (List.dropLast_append_getLast hsome).symm⟩
    have harguments := htarget.arguments
    rw [hnames, List.forall_mem_append, List.forall_mem_singleton] at harguments
    rw [List.forall_mem_append, List.forall_mem_singleton] at hwords
    have hlen' : names.length = ws.length := by simpa [hnames] using hlen
    have hmessage : (target.renderWith (names ++ [last])).toList = _ :=
      Header.toList_renderWith hk hparts hlen'
    rw [← hnames] at hmessage
    rw [hmessage] at htext
    obtain ⟨tokens, j, hmessage, hslices, front, hcut, hfront⟩ :=
      Source.Forwards.exists_message src hline
        (Header.isIdentifier_of_mem_zip hwords.1 harguments.1) hwords.2 htext
    obtain ⟨hname, hend, -⟩ := hcut.isWord_last harguments.2 hfront hmessage.last.gap
    obtain ⟨send, hsends, hreceiver, hselector⟩ := hmessage.sends_eq hname hend
    refine ⟨⟨_, hmessage.forwards.statements_of_calm (fun k =>
      hmessage.forwards.reads.calm_or_caret (hmessage.calm_of_name hname hend)) ?_ ?_, rfl⟩, send, hsends, ?_,
      hreceiver⟩
    · rw [← hend]
      exact Source.isSignificant_of_isWordChar hname.last
    · have hj := hmessage.phrases.le
      omega
    · rw [hselector, hslices, List.map_fst_zip (by simp [hlen']), ← Header.keywordsOf_eq, ← hparts,
        htarget.join_parts]

end MethodBrowser
