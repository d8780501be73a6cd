import Mathlib.Data.List.Sort
import MethodBrowser.Proofs.Edit.UnaryEdits
import MethodBrowser.Proofs.Plan.BodyWrites
import MethodBrowser.Proofs.Send.KeywordPartition
import MethodBrowser.Proofs.Send.Recognition

/-!
# The sends that inlining replaces

Inlining looks for the word `self` and for the selector behind it, in a scan of its own. It finds the
unary sends that are listed with the receiver `self` (`InlineMethod.stops_eq`).

**The scan** skips the words that belong to a site already. The only word there that could start a site
is the selector, and it does not if it is not `self` (`InlineMethod.stop_le_of_siteAt?`).

**What is left out.** A site has to be clear of literal arrays and block temporaries as a whole, a send
only with its selector. This makes no difference: these end with a bracket or a bar, and there is none
between `self` and the selector (`Source.admits_from`).
-/

namespace MethodBrowser

namespace Source

variable {src : Source} {i l : Nat} {m : Nesting} {sp word : Span}

/-! ## What is left out of a region -/

/-- The byte at `i` is part of a word or white space. -/
def isFiller (src : Source) (i : Nat) : Bool := src.holds Cell.isWordChar i || src.holds Cell.isGap i

theorem isFiller_of_codeAt {x : Char} (hx : Byte.isIdent x.toUInt8 = false)
    (hx' : Byte.isBlank x.toUInt8 = false) (h : src.codeAt i x = true) : src.isFiller i = false := by
  rw [isFiller, not_isGap_of_codeAt hx' h, Bool.or_false]
  by_contra hchar
  rw [Bool.not_eq_false] at hchar
  simp [codeAt_of_isWordChar hx hchar] at h

theorem step?_of_isFiller (h : src.isFiller i = true) :
    ∃ b, src.codeByte? i = some b ∧ ∀ n : Nesting, n.step? b = some n := by
  rcases Bool.or_eq_true_iff.1 h with hchar | hgap
  · obtain ⟨b, hb, hident⟩ := codeByte?_of_isWordChar hchar
    exact ⟨b, hb, Nesting.step?_of_isIdent hident⟩
  · obtain ⟨⟨b, kind⟩, hcell, hgap⟩ := Option.any_eq_true _ _ |>.1 hgap
    rw [Cell.isGap, Bool.and_eq_true, Cell.isCode, beq_iff_eq] at hgap
    obtain ⟨rfl, hblank⟩ := hgap
    exact ⟨b, by simp [codeByte?, hcell], Nesting.step?_of_isBlank hblank⟩

/-- A group ends with a bracket, unless it is not closed. -/
theorem groupEnd_last (hm : m.isTopLevel = false) :
    src.groupEnd m i l = l ∨ src.isFiller (src.groupEnd m i l - 1) = false := by
  induction hd : l - i generalizing i m with
  | zero => exact .inl (groupEnd_of_le (by omega))
  | succ d ih =>
    by_cases hfiller : src.isFiller i = true
    · obtain ⟨b, hb, hstep⟩ := step?_of_isFiller hfiller
      rw [groupEnd_eq (by omega), hb]
      simp only [hstep, hm, Bool.false_eq_true, if_false]
      exact ih hm (by omega)
    · rcases src.groupEnd_cases hm (show i < l by omega) with hend | ⟨m', hm', hend, -⟩
      · rw [hend, Nat.add_sub_cancel]
        exact .inr (by simpa using hfiller)
      · rw [hend]
        exact ih hm' (by omega)

/-- What is left out of a region ends with a bracket or a bar, or where the region ends. -/
theorem excluded_last (h : sp ∈ src.sendRegion.excluded) :
    sp.stop = src.sendRegion.span.stop ∨ src.isFiller (sp.stop - 1) = false := by
  rcases List.mem_append.1 h with harray | hblock
  · obtain ⟨hopens, hlt, hstop⟩ := mem_literalArraysFrom harray
    obtain ⟨m, hm, hend, -⟩ := groupEnd_of_opensArray hopens hlt
    rw [hstop, hend]
    exact groupEnd_last hm
  · obtain ⟨k, -, hfound⟩ := List.mem_filterMap.1 hblock
    obtain ⟨-, hclose, -⟩ := blockTemporariesAt?_eq_some hfound
    exact .inr (isFiller_of_codeAt (by decide) (by decide) hclose)

/-- Words and white space in front of a token do not matter to whether it is left out. -/
theorem admits_from {start : Nat} (hregion : src.sendRegion.span.start ≤ start)
    (hle : start ≤ word.start) (hlt : word.start < word.stop)
    (hfiller : ∀ k, start ≤ k → k < word.start → src.isFiller k = true) :
    src.sendRegion.admits ⟨start, word.stop⟩ = src.sendRegion.admits word := by
  have hcontains : src.sendRegion.span.contains ⟨start, word.stop⟩ =
      src.sendRegion.span.contains word := by
    rw [Bool.eq_iff_iff, Span.contains_iff, Span.contains_iff]
    simp only
    omega
  rw [SendRegion.admits, SendRegion.admits, hcontains, Bool.eq_iff_iff, Bool.and_eq_true,
    Bool.and_eq_true, Bool.not_eq_true', Bool.not_eq_true']
  refine and_congr_right fun hin => ?_
  have hstop := (Span.contains_iff.1 hin).2
  rw [← Bool.not_eq_true, ← Bool.not_eq_true, List.any_eq_true, List.any_eq_true]
  refine not_congr ?_
  refine exists_congr fun x => and_congr_right fun hx => ?_
  rw [Span.overlaps_iff, Span.overlaps_iff]
  refine and_congr_right fun _ => ⟨fun hover => ?_, fun hover => Nat.lt_of_le_of_lt hle hover⟩
  by_contra hge
  rcases excluded_last hx with hend | hlast
  · omega
  · rw [hfiller (x.stop - 1) (by simp only at hover; omega) (by omega)] at hlast
    simp at hlast

/-! ## Words -/

theorem pairwise_words (src : Source) (region : Span) :
    (src.words region).Pairwise fun a b => a.start < b.start :=
  pairwise_tokens (fun _ _ hw => (src.wordAt?_bounds hw).1) region

theorem mem_words {region : Span} : word ∈ src.words region ↔
    region.start ≤ word.start ∧ src.wordAt? word.start region.stop = some word := by
  rw [words, List.mem_filterMap]
  constructor
  · rintro ⟨k, hk, hw⟩
    rw [(src.wordAt?_bounds hw).1]
    exact ⟨(Span.mem_offsets.1 hk).1, hw⟩
  · rintro ⟨hstart, hw⟩
    exact ⟨word.start, Span.mem_offsets.2 ⟨hstart, (wordAt?_eq_some hw).1⟩, hw⟩

/-- No word starts inside another one. -/
theorem stop_le_of_wordAt? {a b : Span} (ha : src.wordAt? a.start l = some a)
    (hb : src.wordAt? b.start l = some b) (hab : a.start < b.start) : a.stop ≤ b.start := by
  by_contra hlt
  simp [(inner_of_wordAt? ha hab (Nat.lt_of_not_le hlt)).wordAt?] at hb

/-- From a word to the token after it there are word characters and white space. -/
theorem isFiller_to_next (h : src.wordAt? word.start l = some word) {k : Nat} (hk : word.start ≤ k)
    (hk' : k < src.skipGap word.stop l) : src.isFiller k = true := by
  rw [isFiller, Bool.or_eq_true]
  rcases Nat.lt_or_ge k word.stop with hlt | hge
  · exact .inl (isWordChar_of_wordAt? h hk hlt)
  · exact .inr (holds_of_lt_runEnd hge hk')

/-- A word ends with a letter or a digit, and so not with white space. -/
theorem not_isGap_of_wordAt? (h : src.wordAt? word.start l = some word) :
    src.holds Cell.isGap (word.stop - 1) = false := by
  have hlt := (src.wordAt?_bounds h).2
  exact not_isGap_of_isSignificant
    (isSignificant_of_isWordChar (isWordChar_of_wordAt? h (by omega) (by omega)))

end Source

namespace InlineMethod

variable {src : Source} {selector : String} {a b site : Span}

/-! ## A site -/

/-- A site is the word `self`, white space and the selector. -/
structure SiteAt (src : Source) (selector : String) (receiver word : Span) : Prop where
  mem_words : receiver ∈ src.words src.sendRegion.span
  isSelf : src.slice receiver = "self"
  isWord : src.wordAt? word.start src.sendRegion.span.stop = some word
  start : word.start = src.skipGap receiver.stop src.sendRegion.span.stop
  spelled : src.slice word = selector
  colon : src.codeAt word.stop ':' = false
  admitted : src.sendRegion.admits word = true

namespace SiteAt

variable {receiver word : Span}

theorem bounds (h : SiteAt src selector receiver word) :
    receiver.start < receiver.stop ∧ receiver.stop ≤ word.start ∧ word.start < word.stop := by
  have hgap := src.le_skipGap receiver.stop src.sendRegion.span.stop
  rw [← h.start] at hgap
  exact ⟨(src.wordAt?_bounds (Source.mem_words.1 h.mem_words).2).2, hgap,
    (src.wordAt?_bounds h.isWord).2⟩

end SiteAt

theorem siteAt?_eq_some (ha : a ∈ src.words src.sendRegion.span) :
    siteAt? src src.sendRegion selector a = some site ↔
      ∃ word, SiteAt src selector a word ∧ site = ⟨a.start, word.stop⟩ := by
  obtain ⟨hregion, hreceiver⟩ := Source.mem_words.1 ha
  have hlt := (src.wordAt?_bounds hreceiver).2
  have hgap := src.le_skipGap a.stop src.sendRegion.span.stop
  have hadmits : ∀ {word : Span}, src.wordAt? (src.skipGap a.stop src.sendRegion.span.stop)
      src.sendRegion.span.stop = some word →
      src.sendRegion.admits ⟨a.start, word.stop⟩ = src.sendRegion.admits word := by
    intro word hw
    have hbounds := src.wordAt?_bounds hw
    exact Source.admits_from hregion (by omega) (by omega)
      fun k hk hk' => Source.isFiller_to_next hreceiver hk (hbounds.1 ▸ hk')
  simp only [siteAt?]
  constructor
  · intro h
    split at h
    · next hself =>
      split at h
      · simp at h
      · next word hw =>
        split at h
        · next hif =>
          simp only [Bool.and_eq_true, decide_eq_true_eq, Bool.not_eq_true'] at hif
          rw [hadmits hw] at hif
          have hstart := (src.wordAt?_bounds hw).1
          exact ⟨word, ⟨ha, hself, by rw [hstart]; exact hw, hstart, hif.1.1, hif.1.2, hif.2⟩,
            (Option.some.inj h).symm⟩
        · simp at h
    · simp at h
  · rintro ⟨word, h, rfl⟩
    have hw := h.isWord
    rw [h.start] at hw
    simp [h.isSelf, hw, h.spelled, h.colon, hadmits hw, h.admitted]

/-! ## The scan -/

/-- A site ends before the next one starts. -/
theorem stop_le_of_siteAt? {siteA siteB : Span} (hself : selector ≠ "self")
    (ha : a ∈ src.words src.sendRegion.span) (hb : b ∈ src.words src.sendRegion.span)
    (hab : a.start < b.start) (hsiteA : siteAt? src src.sendRegion selector a = some siteA)
    (hsiteB : siteAt? src src.sendRegion selector b = some siteB) : siteA.stop ≤ b.start := by
  obtain ⟨word, hA, rfl⟩ := (siteAt?_eq_some ha).1 hsiteA
  obtain ⟨_, hB, -⟩ := (siteAt?_eq_some hb).1 hsiteB
  have hwordB := (Source.mem_words.1 hb).2
  rcases Nat.lt_trichotomy b.start word.start with hlt | heq | hgt
  · -- Between the two words of a site there is only white space.
    have hge := Source.stop_le_of_wordAt? (Source.mem_words.1 ha).2 hwordB hab
    have hgap := Source.holds_of_lt_runEnd hge (hA.start ▸ hlt)
    have hletter := Source.holds_of_imp (fun _ => Cell.isWordChar_of_isLetter)
      (Source.wordAt?_eq_some hwordB).2.1
    rw [Source.not_isGap_of_isSignificant (Source.isSignificant_of_isWordChar hletter)] at hgap
    simp at hgap
  · -- The selector of a site is not `self`.
    obtain rfl : b = word := Option.some.inj (hwordB.symm.trans (heq ▸ hA.isWord))
    exact absurd (hA.spelled.symm.trans hB.isSelf) hself
  · exact Source.stop_le_of_wordAt? (a := word) hA.isWord hwordB hgt

/-- The scan for sites leaves none out. -/
theorem sitesAmong_eq {cursor : Nat} {words : List Span} (hself : selector ≠ "self")
    (hwords : ∀ word ∈ words, word ∈ src.words src.sendRegion.span)
    (hsorted : words.Pairwise fun a b => a.start < b.start)
    (hcursor : ∀ word ∈ words, word.start < cursor →
      siteAt? src src.sendRegion selector word = none) :
    sitesAmong src src.sendRegion selector cursor words =
      words.filterMap (siteAt? src src.sendRegion selector) := by
  induction words generalizing cursor with
  | nil => rfl
  | cons word words ih =>
    rw [List.forall_mem_cons] at hwords hcursor
    rw [List.pairwise_cons] at hsorted
    rw [sitesAmong]
    split
    · next hlt =>
      rw [List.filterMap_cons_none (hcursor.1 hlt)]
      exact ih hwords.2 hsorted.2 hcursor.2
    · cases hsite : siteAt? src src.sendRegion selector word with
      | none =>
        rw [List.filterMap_cons_none hsite]
        exact ih hwords.2 hsorted.2 hcursor.2
      | some site =>
        rw [List.filterMap_cons_some hsite]
        refine congrArg (site :: ·) (ih hwords.2 hsorted.2 fun b hb hlt => ?_)
        by_contra hsome
        obtain ⟨site', hsite'⟩ := Option.ne_none_iff_exists'.1 hsome
        have hle := stop_le_of_siteAt? hself hwords.1 (hwords.2 b hb) (hsorted.1 b hb) hsite hsite'
        omega

theorem selfSendSites_eq (hself : selector ≠ "self") : selfSendSites src selector =
    (src.words src.sendRegion.span).filterMap (siteAt? src src.sendRegion selector) := by
  refine sitesAmong_eq hself (fun _ h => h) (src.pairwise_words _) fun word hword hlt => ?_
  have hge := (Source.mem_words.1 hword).1
  omega

theorem mem_selfSendSites (hself : selector ≠ "self") : site ∈ selfSendSites src selector ↔
    ∃ receiver word, SiteAt src selector receiver word ∧ site = ⟨receiver.start, word.stop⟩ := by
  rw [selfSendSites_eq hself, List.mem_filterMap]
  refine exists_congr fun receiver => ⟨fun ⟨hreceiver, hsite⟩ =>
    (siteAt?_eq_some hreceiver).1 hsite, fun ⟨word, h, heq⟩ => ⟨h.mem_words, ?_⟩⟩
  exact (siteAt?_eq_some h.mem_words).2 ⟨word, h, heq⟩

theorem pairwise_selfSendSites (hself : selector ≠ "self") :
    (selfSendSites src selector).Pairwise fun a b => a.stop ≤ b.start := by
  rw [selfSendSites_eq hself, List.pairwise_filterMap]
  refine (src.pairwise_words _).imp_of_mem fun {a b} ha hb hab siteA hsiteA siteB hsiteB => ?_
  rw [start_of_siteAt? hsiteB]
  exact stop_le_of_siteAt? hself ha hb hab hsiteA hsiteB

theorem lt_of_mem_selfSendSites (hself : selector ≠ "self")
    (h : site ∈ selfSendSites src selector) : site.start < site.stop := by
  obtain ⟨receiver, word, hsite, rfl⟩ := (mem_selfSendSites hself).1 h
  have hbounds := hsite.bounds
  simp only
  omega

/-! ## The sends -/

/-- The unary sends of a selector in a method. -/
def unarySends (src : Source) (selector : String) : List Send :=
  src.sends.filter fun send => send.kind == .unary && send.selector == selector

/-- Those of them that the text shows to be sent to `self`. -/
def selfSends (src : Source) (selector : String) : List Send :=
  (unarySends src selector).filter (·.receiver == .self)

theorem unarySends_perm (src : Source) (selector : String) : (unarySends src selector).Perm
    ((src.simpleSends src.sendRegion).filter fun send =>
      send.kind == .unary && send.selector == selector) := by
  have heq : unarySends src selector = (src.sends.filter (·.kind != .keyword)).filter fun send =>
      send.kind == .unary && send.selector == selector := by
    rw [unarySends, List.filter_filter]
    refine List.filter_congr fun send _ => ?_
    cases send.kind <;> simp
  rw [heq]
  exact src.filter_sends_perm.filter _

theorem mem_unarySends {send : Send} : send ∈ unarySends src selector ↔
    src.Recognized src.sendRegion send ∧ send.kind = .unary ∧ send.selector = selector := by
  rw [(unarySends_perm _ _).mem_iff, List.mem_filter,
    Source.mem_simpleSends_iff src.not_isDigit_before_region, Bool.and_eq_true, beq_iff_eq,
    beq_iff_eq]

theorem mem_selfSends {send : Send} : send ∈ selfSends src selector ↔
    (src.Recognized src.sendRegion send ∧ send.kind = .unary ∧ send.selector = selector) ∧
      send.receiver = .self := by
  rw [selfSends, List.mem_filter, mem_unarySends, beq_iff_eq]

theorem wordAt?_of_mem_unarySends {send : Send} (h : send ∈ unarySends src selector) :
    src.wordAt? send.span.start src.sendRegion.span.stop = some send.span ∧
      src.codeAt send.span.stop ':' = false := by
  obtain ⟨hsend, hkind, -⟩ := mem_unarySends.1 h
  have htoken := hsend.token
  rw [hkind] at htoken
  cases htoken with
  | unary hw hcolon => exact ⟨hw, hcolon⟩

/-- The selector of a site is a send to `self`. -/
theorem SiteAt.mem_selfSends {receiver word : Span} (h : SiteAt src selector receiver word) :
    ⟨selector, .unary, .self, word, 1⟩ ∈ selfSends src selector := by
  obtain ⟨hregion, hreceiver⟩ := Source.mem_words.1 h.mem_words
  have hbounds := h.bounds
  have hback : src.skipGapBack word.start src.sendRegion.span.start = receiver.stop := by
    rw [h.start]
    exact Source.skipGapBack_skipGap (by omega) (Source.not_isGap_of_wordAt? hreceiver)
  refine InlineMethod.mem_selfSends.2 ⟨⟨⟨.unary h.isWord h.colon, h.spelled.symm, rfl, h.admitted,
    ?_, ?_⟩, rfl, rfl⟩, rfl⟩
  · rw [hback]
    omega
  · have hends := Source.ReceiverEnds.word hregion hreceiver hback.symm
    rwa [h.isSelf] at hends

/-- A send to `self` is the selector of a site. -/
theorem exists_siteAt {send : Send} (h : send ∈ selfSends src selector) :
    ∃ receiver, SiteAt src selector receiver send.span := by
  obtain ⟨⟨hsend, hkind, hselector⟩, hself⟩ := mem_selfSends.1 h
  obtain ⟨hw, hcolon⟩ := wordAt?_of_mem_unarySends (List.mem_of_mem_filter h)
  have hstop := Span.contains_iff.1 (Bool.and_eq_true_iff.1 hsend.admitted).1
  have hforth : src.skipGap (src.skipGapBack send.span.start src.sendRegion.span.start)
      src.sendRegion.span.stop = send.span.start := Source.skipGap_skipGapBack
    (Nat.le_trans (Nat.le_of_lt hsend.token.lt) hstop.2) hsend.token.not_isGap
  have hreceiver := hsend.receiver
  generalize src.skipGapBack send.span.start src.sendRegion.span.start = p at hforth hreceiver
  rw [hself] at hreceiver
  generalize hr : Receiver.self = r at hreceiver
  cases hreceiver with
  | @word receiver hregion hfound hp =>
    have hisSelf : src.slice receiver = "self" := by
      rw [Receiver.ofWord] at hr
      grind
    refine ⟨receiver, Source.mem_words.2 ⟨hregion, hfound⟩, hisSelf, hw, ?_,
      hsend.selector.symm.trans hselector, hcolon, hsend.admitted⟩
    rw [hp, hforth]
  | number => simp at hr
  | closer => simp at hr
  | cascade => simp at hr

theorem pairwise_stop_unarySends :
    (unarySends src selector).Pairwise fun a b => a.span.stop < b.span.stop := by
  have hsends : (unarySends src selector).Pairwise fun a b => a.span.start < b.span.start := by
    have hne : (unarySends src selector).Pairwise fun a b => a.span.start ≠ b.span.start := by
      rw [(unarySends_perm _ _).pairwise_iff fun h => h.symm]
      exact (src.pairwise_simpleSends _).filter _
    exact (((pairwise_sends src).filter _).and hne).imp fun h => Nat.lt_of_le_of_ne h.1 h.2
  refine hsends.imp_of_mem fun {a b} ha hb hab => ?_
  obtain ⟨hwordA, -⟩ := wordAt?_of_mem_unarySends ha
  obtain ⟨hwordB, -⟩ := wordAt?_of_mem_unarySends hb
  have hle := Source.stop_le_of_wordAt? hwordA hwordB hab
  have hlt := (src.wordAt?_bounds hwordB).2
  omega

/-- The sites and the sends to `self` end at the same bytes, in the same order. -/
theorem stops_eq (src : Source) (hself : selector ≠ "self") :
    (selfSendSites src selector).map (·.stop) =
      (selfSends src selector).map (·.span.stop) := by
  refine List.Pairwise.eq_of_mem_iff (r := (· < ·)) ?_ ?_ fun stop => ?_
  · rw [List.pairwise_map]
    refine (pairwise_selfSendSites hself).imp_of_mem fun {a b} _ hb hab => ?_
    exact Nat.lt_of_le_of_lt hab (lt_of_mem_selfSendSites hself hb)
  · rw [List.pairwise_map]
    exact pairwise_stop_unarySends.filter _
  · rw [List.mem_map, List.mem_map]
    constructor
    · rintro ⟨site, hsite, rfl⟩
      obtain ⟨receiver, word, h, rfl⟩ := (mem_selfSendSites hself).1 hsite
      exact ⟨_, h.mem_selfSends, rfl⟩
    · rintro ⟨send, hsend, rfl⟩
      obtain ⟨receiver, h⟩ := exists_siteAt hsend
      exact ⟨_, (mem_selfSendSites hself).2 ⟨receiver, _, h, rfl⟩, rfl⟩

/-! ## The warning -/

/-- The warning that some sends of the callee are not replaced. -/
def countWarning (caller : MethodRef) (selector : String) (sent replaced : Nat) : String :=
  caller.display ++ s!" sends `{selector}` {sent} time(s) but only {replaced} " ++
    s!"`self {selector}` site(s) were replaced"

/-- The warning that other methods still send the callee. -/
def keptWarnings (callee : MethodRef) (senders : Impact) : List String :=
  let count := senders.count
  let listed := senders.describe
  if senders.isEmpty then []
  else [callee.display ++ s!" is kept; {count} other sender(s) still use it: {listed}"]

variable {session : Session} {settings : Settings} {r : Request} {p : Plan}

/-- What a plan says about the sends of the callee in the caller. -/
theorem plan_eq_ok (h : plan session settings r = .ok p) :
    ∃ text, session.sourceOf ⟨r.className, r.side, r.callerSelector⟩ = .ok text ∧
      p.caller = ⟨r.className, r.side, r.callerSelector⟩ ∧
      p.replacedSites = (selfSendSites (.ofText text) r.calleeSelector).length ∧
      p.callerSendCount = (unarySends (.ofText text) r.calleeSelector).length ∧
      p.warnings = (if p.callerSendCount = p.replacedSites then []
        else [countWarning p.caller r.calleeSelector p.callerSendCount p.replacedSites]) ++
          keptWarnings p.callee p.calleeSenders := by
  simp only [plan, bind_eq_ok, require_eq_ok, mapError_eq_ok, pure, Except.pure,
    Except.ok.injEq] at h
  obtain ⟨-, -, -, -, calleeSource, -, expression, -, source, hsource, -, -, category, -, rfl⟩ := h
  exact ⟨source, hsource, rfl, rfl, rfl, rfl⟩

/-- All unary sends of a selector are sent to `self`, or some are not. -/
theorem length_selfSends_eq_iff : (unarySends src selector).length =
    (selfSends src selector).length ↔ ¬∃ send ∈ unarySends src selector, send.receiver ≠ .self := by
  rw [eq_comm, selfSends, List.length_filter_eq_length_iff]
  simp

/-- Inlining replaces the sends to `self`, each once, and says so if the caller has other sends of the
callee. -/
theorem sites_are_self_sends (selector : String) (hself : selector ≠ "self") :
    (∀ text : String,
      let sites := selfSendSites (.ofText text) selector
      (∀ site ∈ sites, site.start < site.stop) ∧
        sites.Pairwise (fun a b => a.stop ≤ b.start) ∧
        sites.map (·.stop) = (selfSends (.ofText text) selector).map (·.span.stop)) ∧
    ∀ (session : Session) (settings : Settings) (r : Request) (p : Plan),
      r.calleeSelector = selector → plan session settings r = .ok p →
      p.caller = ⟨r.className, r.side, r.callerSelector⟩ ∧
      ∃ text, session.sourceOf p.caller = .ok text ∧
        let sends := unarySends (.ofText text) selector
        p.callerSendCount = sends.length ∧
        p.replacedSites = (selfSends (.ofText text) selector).length ∧
        p.warnings = (if ∃ send ∈ sends, send.receiver ≠ .self then
            [countWarning p.caller selector p.callerSendCount p.replacedSites]
          else []) ++ keptWarnings p.callee p.calleeSenders := by
  refine ⟨fun text => ⟨fun site => lt_of_mem_selfSendSites hself, pairwise_selfSendSites hself,
    stops_eq _ hself⟩, fun session settings r p hcallee h => ?_⟩
  subst hcallee
  obtain ⟨text, hsource, hcaller, hreplaced, hsent, hwarnings⟩ := plan_eq_ok h
  have hlength := congrArg List.length (stops_eq (.ofText text) hself)
  rw [List.length_map, List.length_map] at hlength
  rw [hlength] at hreplaced
  refine ⟨hcaller, text, hcaller ▸ hsource, hsent, hreplaced, ?_⟩
  rw [hwarnings]
  congr 1
  rw [← ite_not]
  refine if_congr ?_ rfl rfl
  rw [hsent, hreplaced, length_selfSends_eq_iff, not_not]

/-- A class with a method that sends `value` to itself and to its argument. -/
def sumCounter : Image :=
  ((Image.empty.defineClass "Counter" (some "Object") "Kernel").perform
    [.compile "Counter" .instanceSide "value\n^count" "accessing",
      .compile "Counter" .instanceSide "plus: n\n^self value + n value" "arithmetic"]).1

theorem sites_are_self_sends_plus :
    "value" ≠ "self" ∧
    ∃ p, plan ⟨sumCounter, []⟩ .standard ⟨"Counter", .instanceSide, "plus:", "value"⟩ = .ok p ∧
      p.replacedSites = 1 ∧ p.callerSendCount = 2 ∧
      countWarning ⟨"Counter", .instanceSide, "plus:"⟩ "value" 2 1 ∈ p.warnings := by
  refine ⟨by decide, ?_⟩
  have htext : Session.sourceOf ⟨sumCounter, []⟩ ⟨"Counter", .instanceSide, "plus:"⟩ =
      .ok "plus: n\n^self value + n value" := by decide +kernel
  have hperm := unarySends_perm (.ofText "plus: n\n^self value + n value") "value"
  have hself : (selfSends (.ofText "plus: n\n^self value + n value") "value").length = 1 :=
    (hperm.filter _).length_eq.trans (by decide +kernel)
  have hsends : (unarySends (.ofText "plus: n\n^self value + n value") "value").length = 2 :=
    hperm.length_eq.trans (by decide +kernel)
  have hother : ∃ send ∈ unarySends (.ofText "plus: n\n^self value + n value") "value",
      send.receiver ≠ .self := by
    by_contra hnone
    have hlength := length_selfSends_eq_iff.2 hnone
    omega
  cases hp : plan ⟨sumCounter, []⟩ .standard ⟨"Counter", .instanceSide, "plus:", "value"⟩ with
  | error e =>
    have hok : (plan ⟨sumCounter, []⟩ .standard
      ⟨"Counter", .instanceSide, "plus:", "value"⟩).toBool = true := by decide +kernel
    simp [hp, Except.toBool] at hok
  | ok p =>
    obtain ⟨hcaller, text, hsource, hsent, hreplaced, hwarnings⟩ :=
      (sites_are_self_sends "value" (by decide)).2 _ _ _ p rfl hp
    rw [hcaller, htext] at hsource
    obtain rfl := Except.ok.inj hsource
    rw [hself] at hreplaced
    rw [hsends] at hsent
    rw [if_pos hother, hcaller, hsent, hreplaced] at hwarnings
    exact ⟨p, rfl, hreplaced, hsent, hwarnings ▸ List.mem_cons_self⟩

end InlineMethod

end MethodBrowser
