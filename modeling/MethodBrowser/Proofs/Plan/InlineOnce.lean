import MethodBrowser.Proofs.Plan.InlineExchange

/-!
# Inlining leaves nothing to inline

When the sites of a callee have been replaced in a method, a second search finds none
(`InlineMethod.selfSendSites_inlined`), and so a second plan is refused (`InlineMethod.plan_again`). The
expression has to be balanced and must not itself send the callee to `self`, and the preamble has to end
where it did.

**From right to left.** Replacing all sites is exchanging one after the other, the last one first. Each
exchange takes the sites of the new text back to sites of the old one that no edit behind it overlaps
(`InlineMethod.Exchanged.cons`), so the whole does (`InlineMethod.exchanged_of_spliced`).

**No site is passed over.** The scan goes on behind each site that it finds. So a site that it does not find
overlaps one that it does (`InlineMethod.Site.exists_selfSendSite`), and that one is replaced.
-/

namespace MethodBrowser

namespace InlineMethod

variable {src s t : Source} {selector : String} {sp receiver site : Span} {floor k : Nat} {x : List Char}

/-! ## What the scan finds -/

/-- The word `self` of a mention, as it is read. -/
theorem mention_iff {stop : Nat} (h : src.wordAt? receiver.start src.size = some receiver) :
    Mention src selector ⟨receiver.start, stop⟩ ↔ src.slice receiver = "self" ∧
      ∃ word, src.wordAt? (src.skipGap receiver.stop src.size) src.size = some word ∧
        src.slice word = selector ∧ word.stop = stop := by
  obtain ⟨hreceiver, hend⟩ := Source.isWord_of_wordAt? h
  constructor
  · rintro ⟨n, g, m, hstop, haddresses⟩
    simp only at hstop haddresses
    have hsize := Source.lt_size_of_holds haddresses.word.last
    have hpos := haddresses.word.pos
    have hword : receiver = ⟨receiver.start, receiver.start + n⟩ :=
      Option.some.inj (h.symm.trans (haddresses.receiver.wordAt?_eq_some (by omega)))
    have hskip : src.skipGap receiver.stop src.size = receiver.start + n + g := by
      rw [show receiver.stop = receiver.start + n from congrArg Span.stop hword]
      refine Source.runEnd_eq (Nat.le_add_right _ g) (by omega) (fun k hk hkg => ?_) ?_
      · obtain ⟨d, rfl⟩ := Nat.exists_eq_add_of_le hk
        exact haddresses.gap d (by omega)
      · exact Source.not_isGap_of_isSignificant
          (Source.isSignificant_of_isWordChar (haddresses.word.chars 0 hpos))
    refine ⟨(congrArg src.slice hword).trans haddresses.isSelf, _, ?_, haddresses.spelled, hstop.symm⟩
    rw [hskip]
    exact haddresses.word.wordAt?_eq_some (by omega)
  · rintro ⟨hself, ⟨start, stop⟩, hw, hspelled, rfl⟩
    have hgap := src.le_skipGap receiver.stop src.size
    obtain ⟨hword, hwend⟩ := Source.isWord_of_wordAt? hw
    have hne := hreceiver.end_ne_start hword
    obtain rfl : start = _ := (src.wordAt?_bounds hw).1
    obtain ⟨g, hg⟩ := Nat.exists_eq_add_of_le hgap
    rw [hend] at hne
    have hcells : ∀ k < g, src.holds Cell.isGap (receiver.stop + k) = true := fun k hk =>
      Source.holds_of_lt_runEnd (Nat.le_add_right ..) (by rw [← Source.skipGap, hg]; omega)
    refine ⟨receiver.size, g, (Span.mk (src.skipGap receiver.stop src.size) stop).size, ?_, hreceiver, ?_,
      by omega, ?_, ?_, ?_⟩ <;> rw [hend]
    · rw [← hg, hwend]
    · exact hself
    · exact hcells
    · rwa [← hg]
    · rwa [← hg, hwend]

/-- The word `self` is found in a text, and behind it the selector. -/
def MentionsSelf (src : Source) (selector : String) : Prop :=
  ∃ receiver ∈ src.words src.span, src.slice receiver = "self" ∧
    (src.wordAt? (src.skipGap receiver.stop src.size) src.size).map src.slice = some selector

instance (src : Source) (selector : String) : Decidable (MentionsSelf src selector) :=
  List.decidableBEx ..

/-- The words of a mention are found. -/
theorem Mention.exists_receiver (h : Mention src selector sp) : ∃ receiver : Span,
    receiver.start = sp.start ∧ src.wordAt? receiver.start src.size = some receiver := by
  obtain ⟨n, g, m, hstop, haddresses⟩ := h
  have hsize := Source.lt_size_of_holds haddresses.word.last
  exact ⟨⟨sp.start, sp.start + n⟩, rfl, haddresses.receiver.wordAt?_eq_some (by omega)⟩

theorem Mention.mentionsSelf (h : Mention src selector sp) : MentionsSelf src selector := by
  obtain ⟨receiver, hstart, hword⟩ := h.exists_receiver
  obtain ⟨start, stop⟩ := sp
  obtain rfl : receiver.start = start := hstart
  obtain ⟨hself, word, hw, hspelled, -⟩ := (mention_iff hword).1 h
  exact ⟨receiver, Source.mem_words.2 ⟨Nat.zero_le _, hword⟩, hself,
    by rw [hw, Option.map_some, hspelled]⟩

theorem siteAt?_iff (h : receiver ∈ src.words src.sendRegion.span) :
    siteAt? src src.sendRegion selector receiver = some site ↔
      site.start = receiver.start ∧ Site src selector src.statementRegion.start site := by
  have hword : src.wordAt? receiver.start src.size = some receiver := (Source.mem_words.1 h).2
  have hlimit : src.sendRegion.span.stop = src.size := rfl
  simp only [siteAt?, hlimit]
  constructor
  · intro hsite
    split at hsite
    · next hself =>
      split at hsite
      · simp at hsite
      · next word hw =>
        split at hsite
        · next hif =>
          simp only [Bool.and_eq_true, decide_eq_true_eq, Bool.not_eq_true'] at hif
          obtain rfl := Option.some.inj hsite
          exact ⟨rfl, (mention_iff hword).2 ⟨hself, word, hw, hif.1.1, rfl⟩, hif.1.2, admits_iff.1 hif.2⟩
        · simp at hsite
    · simp at hsite
  · rintro ⟨hstart, hsite⟩
    obtain ⟨start, stop⟩ := site
    obtain rfl : start = receiver.start := hstart
    obtain ⟨hself, word, hw, hspelled, rfl⟩ := (mention_iff hword).1 hsite.mention
    have hadmits : src.sendRegion.admits ⟨receiver.start, word.stop⟩ = true := admits_iff.2 hsite.admitted
    have hcolon : src.codeAt word.stop ':' = false := hsite.colon
    simp [hself, hw, hspelled, hcolon, hadmits]

/-! ## The sites that are replaced -/

theorem site_of_mem_selfSendSites (h : site ∈ selfSendSites src selector) :
    Site src selector src.statementRegion.start site := by
  obtain ⟨word, hword, hsite⟩ := mem_sitesAmong h
  exact ((siteAt?_iff hword).1 hsite).2

/-- The sites that the scan finds are apart. -/
theorem apart_sitesAmong {words : List Span} {cursor : Nat}
    (hwords : ∀ word ∈ words, word ∈ src.words src.sendRegion.span) :
    (sitesAmong src src.sendRegion selector cursor words).Pairwise (fun a b => a.stop ≤ b.start) ∧
      ∀ site ∈ sitesAmong src src.sendRegion selector cursor words, cursor ≤ site.start := by
  induction words generalizing cursor with
  | nil => simp [sitesAmong]
  | cons word words ih =>
    rw [List.forall_mem_cons] at hwords
    rw [sitesAmong]
    split
    · exact ih hwords.2
    · next hge =>
      split
      · next site hsite =>
        obtain ⟨hstart, hmention, -, -⟩ := (siteAt?_iff hwords.1).1 hsite
        have hlt := hmention.lt
        obtain ⟨hapart, hlater⟩ := @ih site.stop hwords.2
        refine ⟨List.pairwise_cons.2 ⟨hlater, hapart⟩, List.forall_mem_cons.2 ⟨?_, fun b hb => ?_⟩⟩
        · omega
        · have := hlater b hb
          omega
      · exact ih hwords.2

/-- A site that is not found overlaps one that is. -/
theorem exists_overlap {words : List Span} {cursor : Nat}
    (hwords : ∀ word ∈ words, word ∈ src.words src.sendRegion.span)
    (hsorted : words.Pairwise fun a b => a.start < b.start) (hreceiver : receiver ∈ words)
    (hsite : siteAt? src src.sendRegion selector receiver = some site) (hcursor : cursor ≤ receiver.start) :
    ∃ found ∈ sitesAmong src src.sendRegion selector cursor words, found.overlaps site = true := by
  obtain ⟨hstart, hmention, -, -⟩ := (siteAt?_iff (hwords receiver hreceiver)).1 hsite
  have hlt := hmention.lt
  induction words generalizing cursor with
  | nil => simp at hreceiver
  | cons word words ih =>
    rw [List.forall_mem_cons] at hwords
    rw [List.pairwise_cons] at hsorted
    rw [List.mem_cons] at hreceiver
    rw [sitesAmong]
    split
    · next hpassed =>
      have hne : receiver ≠ word := by
        rintro rfl
        omega
      exact ih hwords.2 hsorted.2 (hreceiver.resolve_left hne) hcursor
    · split
      · next found hfound =>
        rcases hreceiver with rfl | hreceiver
        · obtain rfl : found = site := Option.some.inj (hfound.symm.trans hsite)
          exact ⟨found, List.mem_cons_self, Span.overlaps_iff.2 ⟨hlt, hlt⟩⟩
        · rcases Nat.lt_or_ge receiver.start found.stop with hin | hge
          · have hfirst := start_of_siteAt? hfound
            have hafter := hsorted.1 receiver hreceiver
            exact ⟨found, List.mem_cons_self, Span.overlaps_iff.2 ⟨by omega, by omega⟩⟩
          · obtain ⟨other, hother, hover⟩ := ih hwords.2 hsorted.2 hreceiver hge
            exact ⟨other, List.mem_cons_of_mem _ hother, hover⟩
      · next hnone =>
        have hne : receiver ≠ word := by
          rintro rfl
          rw [hnone] at hsite
          simp at hsite
        exact ih hwords.2 hsorted.2 (hreceiver.resolve_left hne) hcursor

/-- Every site overlaps one that is replaced. -/
theorem Site.exists_selfSendSite (h : Site src selector src.statementRegion.start site) :
    ∃ found ∈ selfSendSites src selector, found.overlaps site = true := by
  obtain ⟨receiver, hstart, hword⟩ := h.mention.exists_receiver
  have hle := h.admitted.le
  have hmem : receiver ∈ src.words src.sendRegion.span := Source.mem_words.2 ⟨hstart ▸ hle, hword⟩
  exact exists_overlap (fun _ hword => hword) (src.pairwise_words _) hmem
    ((siteAt?_iff hmem).2 ⟨hstart.symm, h⟩) (hstart ▸ hle)

/-! ## Cuts around a site -/

/-- A text can be cut around a mention. -/
theorem Mention.exists_cut (h : Mention src selector sp) : ∃ l w r, src.text.toList = l ++ w ++ r ∧
    String.utf8Len l = sp.start ∧ String.utf8Len (l ++ w) = sp.stop ∧ Mode.code.after l = .code ∧
    Mode.code.after (l ++ w) = .code := by
  obtain ⟨n, g, m, hstop, haddresses⟩ := h
  obtain ⟨l, v, r, htext, hlen, -, -, hmode⟩ := haddresses.receiver.exists_cut
  obtain ⟨l', v', r', htext', hlen', hsize, hident, hmode'⟩ := haddresses.word.exists_cut
  have hplain : ∀ c ∈ v', IsPlain c := fun c hc =>
    isPlain_of_isIdentRest (isIdentRest_of_isIdentifier hident c hc)
  have hend : String.utf8Len (l' ++ v') = sp.stop := by
    rw [String.utf8Len_append, hlen', utf8Len_of_ascii fun c hc => (hplain c hc).1, hsize, hstop]
  have hsplit : l ++ (v ++ r) = l' ++ v' ++ r' := by rw [← htext', htext, List.append_assoc]
  obtain ⟨w, heq, -⟩ := append_eq_append_of_le hsplit (by omega)
  refine ⟨l, w, r', heq ▸ htext', hlen, heq ▸ hend, hmode, ?_⟩
  rw [← heq, Mode.after_append, hmode', after_of_plain hplain]

/-- The reader is in code at both ends of a mention. -/
theorem Mention.modes {l w r : List Char} (h : Mention src selector sp)
    (htext : src.text.toList = l ++ w ++ r) (hstart : sp.start = String.utf8Len l)
    (hstop : sp.stop = String.utf8Len (l ++ w)) :
    Mode.code.after l = .code ∧ Mode.code.after (l ++ w) = .code := by
  obtain ⟨l', w', r', htext', hlen, hlen', hmode, hmode'⟩ := h.exists_cut
  obtain ⟨hbefore, -⟩ := append_inj_of_utf8Len (htext'.symm.trans htext) (hlen'.trans hstop)
  obtain ⟨hleft, -⟩ := append_inj_of_utf8Len hbefore (hlen.trans hstart)
  exact ⟨hleft ▸ hmode, hbefore ▸ hmode'⟩

theorem Mention.neutral {e : Edit} (h : Mention src selector e.span)
    (hx : e.replacement.toList = parenthesized x) (hclosed : Mode.code.after x = .code) :
    e.Neutral src.text.toList := by
  obtain ⟨l, w, r, htext, hlen, hlen', hmode, hmode'⟩ := h.exists_cut
  rw [String.utf8Len_append] at hlen'
  refine ⟨⟨l, w, r, htext, hlen.symm, by omega, hmode, hmode'⟩, ?_⟩
  rw [hx]
  exact after_parenthesized hclosed

/-! ## All sites exchanged -/

/-- The edits of `s` lead to `t`, from the offset `i` on, and a site of `t` was a site of `s` that they left
alone. -/
structure Exchanged (s t : Source) (selector : String) (floor i : Nat) (es : List Edit) : Prop where
  stays : ∀ {sp}, Site s selector floor sp → (∀ e ∈ es, sp.stop < e.span.start) →
    Site t selector floor sp
  goes_back : ∀ {sp}, Site t selector floor sp → ∃ sp', Site s selector floor sp' ∧
    (∀ e ∈ es, e.span.overlaps sp' = false) ∧
      ((sp' = sp ∧ ∀ e ∈ es, sp.stop < e.span.start) ∨ i ≤ sp.start ∧ i ≤ sp'.start)

/-- Edits behind a site are made, and then the site is exchanged. -/
theorem Exchanged.cons {s' : Source} {l w r : List Char} {e : Edit} {es : List Edit} {i : Nat}
    (h : Exchanged s s' selector floor e.span.stop es) (E : Exchange s' t selector floor l w x r)
    (hspan : e.span = ⟨String.utf8Len l, String.utf8Len (l ++ w)⟩) (hi : i ≤ String.utf8Len l) :
    Exchanged s t selector floor i (e :: es) := by
  have hlt := E.lt
  rw [hspan] at h
  simp only at h
  constructor
  · intro sp hsite hbefore
    rw [List.forall_mem_cons, hspan] at hbefore
    exact E.stays (h.stays hsite hbefore.2) hbefore.1
  · intro sp hsite
    rcases E.goes_back hsite with ⟨hleft, hsite'⟩ | ⟨sp', hsite', hright, hright'⟩
    · have hpos := hsite'.mention.lt
      obtain ⟨sp', hold, hapart, ⟨rfl, hbefore⟩ | ⟨hge, -⟩⟩ := h.goes_back hsite'
      · refine ⟨sp', hold, List.forall_mem_cons.2 ⟨?_, hapart⟩,
          .inl ⟨rfl, List.forall_mem_cons.2 ⟨?_, hbefore⟩⟩⟩
        · rw [hspan]
          exact Span.overlaps_of_ge (Nat.le_of_lt hleft)
        · rw [hspan]
          exact hleft
      · omega
    · obtain ⟨sp'', hold, hapart, hwhere⟩ := h.goes_back hsite'
      have hge : String.utf8Len (l ++ w) ≤ sp''.start := by
        rcases hwhere with ⟨rfl, -⟩ | ⟨-, hge⟩
        · exact hright
        · exact hge
      have hlen := Exchange.utf8Len_new (l := l) (x := x)
      refine ⟨sp'', hold, List.forall_mem_cons.2 ⟨?_, hapart⟩, .inr ⟨by omega, by omega⟩⟩
      rw [hspan]
      exact Span.overlaps_of_le hge

theorem exchange_ofChars {l w r : List Char} (hbalanced : IsBalanced x)
    (hsilent : ∀ sp, ¬Mention (.ofChars x) selector sp)
    (h : Site (.ofChars (l ++ w ++ r)) selector floor ⟨String.utf8Len l, String.utf8Len (l ++ w)⟩) :
    Exchange (.ofChars (l ++ w ++ r)) (.ofChars (l ++ parenthesized x ++ r)) selector floor l w x r := by
  have htext : ∀ cs, (Source.ofChars cs).text.toList = cs := fun _ => String.toList_ofList
  obtain ⟨hmode, hmode'⟩ := h.mention.modes (htext _) rfl rfl
  exact ⟨⟨by rw [htext, List.append_assoc], fun _ => hmode⟩, ⟨htext _, fun _ => hmode'⟩,
    ⟨by rw [htext, List.append_assoc], fun _ => hmode⟩, h, hbalanced, hsilent⟩

/-- Of the sites of a text from which others are taken, those are left that the edits do not overlap. -/
theorem exchanged_of_spliced {es : List Edit} {i : Nat} {l old new : List Char} (hbalanced : IsBalanced x)
    (hsilent : ∀ sp, ¬Mention (.ofChars x) selector sp) (h : Edit.Spliced i es old new)
    (hi : i = String.utf8Len l) (hes : ∀ e ∈ es, Site (.ofChars (l ++ old)) selector floor e.span ∧
      e.replacement.toList = parenthesized x) :
    Exchanged (.ofChars (l ++ old)) (.ofChars (l ++ new)) selector floor i es := by
  induction h generalizing l with
  | nil => exact ⟨fun h _ => h, fun h => ⟨_, h, by simp, .inl ⟨rfl, by simp⟩⟩⟩
  | @cons i e es gap word rest rest' hstart hstop hrest ih =>
    rw [List.forall_mem_cons] at hes
    have hspan : e.span = ⟨String.utf8Len (l ++ gap), String.utf8Len (l ++ gap ++ word)⟩ := by
      obtain ⟨⟨start, stop⟩, _⟩ := e
      simp only [String.utf8Len_append, Span.mk.injEq] at hstart hstop ⊢
      omega
    have hassoc : ∀ mid tail, l ++ (gap ++ mid ++ tail) = l ++ gap ++ mid ++ tail := by simp
    rw [hassoc] at hes ⊢
    rw [hassoc, hes.1.2]
    have hbehind := ih (l := l ++ gap ++ word) (by rw [hspan]) hes.2
    -- A site ends with a letter or a digit, so the next one does not start right there.
    have hafter : ∀ f ∈ es, e.span.stop < f.span.start := fun f hf =>
      Nat.lt_of_le_of_ne (hrest.le_start f hf).1 (hes.1.1.mention.stop_ne_start (hes.2 f hf).1.mention)
    have hsite := hbehind.stays hes.1.1 hafter
    rw [hspan] at hsite
    refine hbehind.cons (exchange_ofChars hbalanced hsilent hsite) hspan ?_
    rw [String.utf8Len_append]
    omega

/-! ## A second search -/

/-- A caller with all its sites replaced. -/
def inlined (source selector expression : String) : String :=
  Edit.applyAll source
    ((selfSendSites (.ofText source) selector).map fun site => ⟨site, "(" ++ expression ++ ")"⟩)

theorem selfSendSites_inlined {source expression : String} (hbalanced : IsBalanced expression.toList)
    (hsilent : ¬MentionsSelf (.ofText expression) selector)
    (hregion : (Source.ofText (inlined source selector expression)).statementRegion.start =
      (Source.ofText source).statementRegion.start) :
    selfSendSites (.ofText (inlined source selector expression)) selector = [] := by
  have hchars : ∀ text : String, Source.ofText text = .ofChars text.toList := fun text => by
    rw [Source.ofChars, String.ofList_toList]
  generalize hedits : ((selfSendSites (.ofText source) selector).map fun site =>
    (⟨site, "(" ++ expression ++ ")"⟩ : Edit)) = edits
  have heq : inlined source selector expression = Edit.applyAll source edits := congrArg _ hedits
  rw [heq] at hregion ⊢
  have hsites : ∀ e ∈ edits,
      Site (.ofText source) selector (Source.ofText source).statementRegion.start e.span ∧
        e.replacement.toList = parenthesized expression.toList := by
    rw [← hedits, List.forall_mem_map]
    exact fun site hsite => ⟨site_of_mem_selfSendSites hsite, by simp [parenthesized]⟩
  have hapart : Edit.Apart edits := by
    rw [Edit.Apart, ← hedits, List.pairwise_map]
    exact (apart_sitesAmong fun _ h => h).1
  have hsorted : Edit.sorted edits = edits := by
    refine List.mergeSort_of_pairwise (hapart.imp_of_mem fun {a b} ha _ hab => ?_)
    have hlt := (hsites a ha).1.mention.lt
    rw [Span.le_iff]
    omega
  have hsplice := Edit.exists_applyAll source
    (fun e he => ((hsites e he).1.mention.neutral (hsites e he).2 hbalanced.mode).hasSpan)
    (hsorted.symm ▸ hapart)
  rw [hsorted] at hsplice
  have hexchanged := exchanged_of_spliced (l := []) hbalanced
    (fun sp hmention => hsilent (hchars expression ▸ hmention.mentionsSelf)) hsplice rfl
    (hchars source ▸ hsites)
  rw [List.nil_append, List.nil_append, ← hchars, ← hchars] at hexchanged
  rw [List.eq_nil_iff_forall_not_mem]
  intro site hsite
  have hnew := site_of_mem_selfSendSites hsite
  rw [hregion] at hnew
  obtain ⟨site', hold, hclear, -⟩ := hexchanged.goes_back hnew
  obtain ⟨found, hfound, hover⟩ := hold.exists_selfSendSite
  have hmem : ⟨found, "(" ++ expression ++ ")"⟩ ∈ edits := hedits ▸ List.mem_map_of_mem hfound
  rw [hclear _ hmem] at hover
  simp at hover

/-! ## A second plan -/

/-- Where the preamble of a method ends. -/
def preambleEnd (text : String) : Nat := ((Source.ofText text).preamble (Source.ofText text).bodyStart).stop

variable {session session' : Session} {settings : Settings} {r : Request} {p : Plan}

theorem newCallerSource_eq (h : plan session settings r = .ok p) :
    p.newCallerSource = inlined p.oldCallerSource r.calleeSelector p.inlineExpression := by
  simp only [plan, bind_eq_ok, require_eq_ok, mapError_eq_ok, pure, Except.pure, Except.ok.injEq] at h
  obtain ⟨-, -, -, -, calleeSource, -, expression, -, source, -, -, -, category, -, rfl⟩ := h
  rfl

/-- A request that was planned is refused when the caller has no sites any more. -/
theorem plan_again (settings' : Settings) (h : plan session settings r = .ok p)
    (hcallee : session'.sourceOf p.callee = session.sourceOf p.callee)
    (hcaller : session'.sourceOf p.caller = .ok p.newCallerSource)
    (hnone : selfSendSites (.ofText p.newCallerSource) r.calleeSelector = []) :
    plan session' settings' r = .error (.precondition (.noInlineSites p.caller r.calleeSelector)) := by
  simp only [plan, bind_eq_ok, require_eq_ok, mapError_eq_ok, pure, Except.pure, Except.ok.injEq] at h
  obtain ⟨-, hkind, -, hne, calleeSource, hsource, expression, hexpression, source, -, -, -, category, -,
    rfl⟩ := h
  simp only at hcallee hcaller hnone
  rw [hsource] at hcallee
  simp only [decide_eq_true_eq] at hne
  simp [plan, hkind, hne, hcallee, hexpression, hcaller, hnone, require, bind, Except.bind, Except.mapError]

/-- Caller and callee are two methods, and the image has the callee. -/
theorem callee_ne_caller (h : plan session settings r = .ok p) :
    p.callee ≠ p.caller ∧ ∃ entry, session.image.method? p.callee = some entry := by
  simp only [plan, bind_eq_ok, require_eq_ok, mapError_eq_ok, Session.sourceOf_eq_ok, pure, Except.pure,
    Except.ok.injEq, decide_eq_true_eq] at h
  obtain ⟨-, -, -, hne, text, ⟨entry, hentry, -⟩, -, -, source, -, -, -, category, -, rfl⟩ := h
  exact ⟨fun heq => hne (congrArg MethodRef.selector heq).symm, entry, hentry⟩

/-- When a plan has been carried out, the caller has its new source and the callee the one that it had. -/
theorem sourceOf_performed {image' : Image} {effects : Effects} (hspelled : session.image.Spelled)
    (h : plan session settings r = .ok p) (hp : session.image.perform p.writes = (image', .ok effects))
    (extra : List MethodRef) :
    Session.sourceOf ⟨image', extra⟩ p.caller = .ok p.newCallerSource ∧
      Session.sourceOf ⟨image', extra⟩ p.callee = session.sourceOf p.callee := by
  obtain ⟨hannounced, hone⟩ := announces hspelled h
  obtain ⟨-, hrewritten⟩ := hannounced.rewritten hone hp
  obtain ⟨hne, entry, hentry⟩ := callee_ne_caller h
  have hcallee : image'.method? p.callee = some entry :=
    (hrewritten.others p.callee (by simpa [Plan.announced] using hne) (by simp)).trans hentry
  refine ⟨Session.sourceOf_eq_ok.2 ⟨_, hrewritten.holds _ (List.mem_singleton_self _), rfl⟩, ?_⟩
  rw [Session.sourceOf_eq_ok.2 ⟨entry, hentry, rfl⟩]
  exact Session.sourceOf_eq_ok.2 ⟨entry, hcallee, rfl⟩

/-- When the sites of a method have been replaced with an expression that is closed and does not send the
callee to `self`, no site is left, and the callee cannot be inlined into the method again. -/
theorem inlining_leaves_no_site :
    (∀ source selector expression : String, IsBalanced expression.toList →
      ¬MentionsSelf (.ofText expression) selector →
      preambleEnd (inlined source selector expression) = preambleEnd source →
      selfSendSites (.ofText (inlined source selector expression)) selector = []) ∧
    ∀ (session session' : Session) (settings settings' : Settings) (r : Request) (p : Plan),
      plan session settings r = .ok p → IsBalanced p.inlineExpression.toList →
      ¬MentionsSelf (.ofText p.inlineExpression) r.calleeSelector →
      preambleEnd p.newCallerSource = preambleEnd p.oldCallerSource →
      session'.sourceOf p.callee = session.sourceOf p.callee →
      session'.sourceOf p.caller = .ok p.newCallerSource →
      plan session' settings' r = .error (.precondition (.noInlineSites p.caller r.calleeSelector)) := by
  refine ⟨fun source selector expression hbalanced hsilent hregion =>
    selfSendSites_inlined hbalanced hsilent hregion,
    fun session session' settings settings' r p h hbalanced hsilent hregion hcallee hcaller => ?_⟩
  refine plan_again settings' h hcallee hcaller ?_
  have hsource := newCallerSource_eq h
  rw [hsource] at hregion ⊢
  exact selfSendSites_inlined hbalanced hsilent hregion

/-- An expression with an array, a block and temporaries. -/
def totalExpression : String := "#(1 2) collect: [:a | | b | b := a. b]"

/-- A class with a method `total` that consists of this expression. Another method sends it in a block, and
mentions it as temporaries of the block and in an array. -/
def ledger : Image :=
  ((Image.empty.defineClass "Ledger" (some "Object") "Kernel").perform
    [.compile "Ledger" .instanceSide ("total\n^" ++ totalExpression) "accessing",
      .compile "Ledger" .instanceSide
        "report\n^[:x | | self total | self total + x] value: #(self total)" "reports"]).1

theorem reachable_ledger : ledger.Reachable := (Image.Reachable.empty.defineClass _ _ _).perform _

theorem inlining_leaves_no_site_report :
    let r : Request := ⟨"Ledger", .instanceSide, "report", "total"⟩
    (selfSendSites (.ofText "report\n^(self total) + 1") "total").length = 1 ∧
    selfSendSites (.ofText (inlined "report\n^(self total) + 1" "total" totalExpression)) "total" = [] ∧
    ∃ p image' effects, plan ⟨ledger, []⟩ .standard r = .ok p ∧ p.replacedSites = 1 ∧
      ledger.perform p.writes = (image', .ok effects) ∧
      plan ⟨image', []⟩ .standard r = .error (.precondition (.noInlineSites p.caller "total")) := by
  intro r
  have hbalanced : IsBalanced totalExpression.toList :=
    ⟨⟨by decide +kernel, by decide +kernel⟩, by decide +kernel⟩
  have hsilent : ¬MentionsSelf (.ofText totalExpression) "total" := by decide +kernel
  have hplanned : (plan ⟨ledger, []⟩ .standard r).map (fun p => (p.inlineExpression, p.replacedSites,
      preambleEnd p.newCallerSource == preambleEnd p.oldCallerSource,
      (ledger.perform p.writes).2.toBool)) = .ok (totalExpression, 1, true, true) := by decide +kernel
  obtain ⟨p, hp, hfacts⟩ := map_eq_ok.1 hplanned
  simp only [Prod.mk.injEq] at hfacts
  obtain ⟨hexpression, hone, hends, hperformed⟩ := hfacts
  obtain ⟨image', effects, hstored⟩ := exists_eq_ok hperformed
  obtain ⟨hcaller, hcallee⟩ := sourceOf_performed reachable_ledger.spelled hp hstored []
  obtain ⟨htext, hplan⟩ := inlining_leaves_no_site
  refine ⟨by decide +kernel, htext _ _ _ hbalanced hsilent (by decide +kernel),
    p, image', effects, hp, hone, hstored, ?_⟩
  exact hplan _ _ _ _ _ p hp (hexpression ▸ hbalanced) (hexpression ▸ hsilent)
    (beq_iff_eq.1 hends) hcallee hcaller

end InlineMethod

end MethodBrowser
