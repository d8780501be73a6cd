import MethodBrowser.Proofs.Plan.Argument
import MethodBrowser.Proofs.Plan.Forwarding

/-!
# What the forwarder of an added parameter says

A keyword and an argument are added to a signature, and the old signature becomes a forwarder that passes an
expression for the new argument. The body of the forwarder begins with a return, and what is returned is
what the new selector answers, sent to `self` (`Source.ForwardedMessage.exists_statement`).

The return is the only statement, unless a point of a bare number ends it too early
(`AddParameter.added_parameter_forwarded`). Such points are let through, because points are taken for
digits when it is decided whether to put the expression into parentheses. `.5` is an example.
-/

namespace MethodBrowser

namespace Source.ForwardedMessage

variable {src : Source} {b j m : Nat} {tokens : List Span} (h : src.ForwardedMessage b tokens j m)
include h

theorem nestFrom_eq : src.nestFrom .empty b (j + m + 2) = .empty := by
  have hj := h.phrases.le
  refine nestFrom_of_steady (by omega) fun k hbk hk n => ?_
  rcases h.calm_or_caret hbk hk with hcalm | hcaret
  · exact hcalm.nest
  · rw [nest, codeByte?_of_codeAt hcaret]
    rfl

theorem not_period {k : Nat} (hbk : b ≤ k) (hk : k < j + m + 2) : src.codeAt k '.' = false :=
  h.codeAt (by decide) (by decide) (by decide) (by decide) hbk hk

variable (hargument : src.Argument (j + m + 2))
include hargument

/-- The message is sent to `self`, and what it answers is returned. -/
theorem exists_statement : ∃ st ∈ src.statements, st.kind = .returns ∧ ∃ send ∈ src.sends,
    st.span.contains send.span = true ∧ send.kind = .keyword ∧ send.span.start = b + 10 ∧
      send.receiver = .self ∧
      send.selector = String.join ((tokens ++ [Span.mk j (j + m + 1)]).map src.slice) := by
  obtain ⟨run, hrun, -, hreceiver, hstart, hselector⟩ := h.exists_run hargument.quiet
  have hunbroken := unbroken_keywordRun hrun
  have hwithin := Span.contains_iff.1 hunbroken.within
  have hlt := hunbroken.lt
  rw [h.forwards.region] at hwithin
  have hspan : src.Unbroken ⟨b + 4, run.span.stop⟩ := by
    refine ⟨Span.contains_iff.2 ?_, ?_, isSignificant_of_codeAt (by decide) h.forwards.reads.caret,
      hunbroken.last, fun k hk hkl => ?_⟩
    · rw [h.forwards.region]
      exact ⟨Nat.le_add_right b 4, hwithin.2⟩
    · simp only
      omega
    · rcases Nat.lt_or_ge k (b + 10) with hbefore | hge
      · have hj := h.phrases.le
        simp only at hk
        exact endsStatement_of_not_period (h.not_period (by omega) (by omega))
      · exact hunbroken.whole k (by omega) hkl
  obtain ⟨st, hst, hcontains⟩ := hspan.exists_statement
  have hbounds := Span.contains_iff.1 hcontains
  -- Only white space comes before the caret.
  have hcaret : st.span.start = b + 4 := by
    obtain ⟨hle, -, hsentence, -⟩ := src.layout_statements.sentence st.span (List.mem_map_of_mem hst)
    rw [h.forwards.region] at hle
    refine Nat.le_antisymm hbounds.1 (Nat.le_of_not_lt fun hbefore => ?_)
    have hidle := idle_of_isGap (fun k => h.forwards.reads.indent) st.span.start hle hbefore
    rw [hsentence.first] at hidle
    simp at hidle
  refine ⟨st, hst, ?_, run.toSend, ?_, Span.contains_iff.2 ⟨?_, hbounds.2⟩, rfl, hstart, hreceiver,
    hselector⟩
  · rw [kind_of_mem_statements hst, statementKind, hcaret, if_pos h.forwards.reads.caret]
  · refine mem_sends.2 (.inl ?_)
    rw [keywordSends_eq]
    exact List.mem_map_of_mem hrun
  · change st.span.start ≤ run.span.start
    omega

/-- The body is one statement exactly if no period of the argument ends it. -/
theorem length_statements : src.statements.length = 1 ↔
    ∀ k, j + m + 2 ≤ k → k < src.size → src.endsStatement .empty (j + m + 2) k = false := by
  have hj := h.phrases.le
  have hlt := hargument.lt
  have hends : ∀ k, j + m + 2 ≤ k →
      src.endsStatement .empty b k = src.endsStatement .empty (j + m + 2) k := fun k hk => by
    rw [endsStatement_trans (by omega) hk, h.nestFrom_eq]
  constructor
  · intro hone
    obtain ⟨st, hst⟩ := List.length_eq_one_iff.1 hone
    have hlayout := src.layout_statements
    rw [hst, h.forwards.region, List.map_singleton] at hlayout
    obtain ⟨hle, -, hsentence, hopen⟩ := hlayout.sentence st.span (List.mem_singleton.2 rfl)
    -- Both ends of the body are in the one statement.
    have hmem : ∀ k, b ≤ k → k < src.size → src.isSignificant k = true → src.codeAt k '.' = false →
        st.span.start ≤ k ∧ k < st.span.stop := by
      intro k hbk hk hsignificant hperiod
      rcases hlayout.exists_contains_or_endsStatement hsignificant hbk hk with ⟨sp, hsp, hcontains⟩ | hend
      · rw [List.mem_singleton.1 hsp] at hcontains
        have := Span.contains_iff.1 hcontains
        exact ⟨this.1, this.2⟩
      · rw [endsStatement_of_not_period hperiod] at hend
        simp at hend
    obtain ⟨hfirst, -⟩ := hmem (b + 4) (by omega) (by omega)
      (isSignificant_of_codeAt (by decide) h.forwards.reads.caret) (h.not_period (by omega) (by omega))
    obtain ⟨-, hlast⟩ := hmem (src.size - 1) (by omega) (by omega) hargument.significant hargument.last
    intro k hk hkl
    have hwhole := hsentence.whole k (by omega) (by omega)
    simp only at hle hopen
    rwa [← hends k hk, endsStatement_trans hle (by omega), hopen]
  · intro hwhole
    rw [h.forwards.statements_eq hargument.significant (by omega) fun k hbk hk => ?_]
    · rfl
    · rcases Nat.lt_or_ge k (j + m + 2) with hbefore | hge
      · exact endsStatement_of_not_period (h.not_period hbk hbefore)
      · rw [hends k hge]
        exact hwhole k hge hk

end Source.ForwardedMessage

/-- The outline has each statement, with the sends that lie in it. -/
theorem exists_outlineStatement {text : String} {st : Statement} (h : st ∈ (Source.ofText text).statements) :
    ∃ st' ∈ (Outline.ofText text).statements, st'.kind = st.kind ∧
      ∀ send ∈ (Source.ofText text).sends, st.span.contains send.span = true → send ∈ st'.sends := by
  obtain ⟨i, hi, rfl⟩ := List.getElem_of_mem h
  refine ⟨.ofStatement (.ofText text) (Source.ofText text).sends (Source.ofText text).statements[i] (i + 1),
    ?_, rfl, fun send hsend hcontains => List.mem_filter.2 ⟨hsend, hcontains⟩⟩
  exact List.mem_mapIdx.2 ⟨i, hi, rfl⟩

namespace AddParameter

variable {session : Session} {settings : Settings} {r : Request} {p : Plan}

theorem plan_forwarder (h : plan session settings r = .ok p) :
    ∃ e header, p.Planned session r e header ∧ p.oldSource = e.source ∧
      p.compatibilitySource = forwarder header (header.extended r.keyword r.argumentName)
        (header.arguments ++ [asArgument r.defaultArgument]) := by
  obtain ⟨e, header, hplanned⟩ := plan_eq_ok h
  simp only [plan, bind_eq_ok, require_eq_ok, pure, Except.pure, Except.ok.injEq] at h
  obtain ⟨target, htarget, -, -, -, -, -, -, -, -, newMethod, -, category, -, rfl⟩ := h
  obtain ⟨⟨e', he', hsource⟩, hheader, -, -⟩ := Session.keywordMethod_eq_ok htarget
  obtain rfl : e' = e := Option.some.inj (he'.symm.trans hplanned.stored)
  obtain rfl : target.header = header := by
    rw [← hsource] at hheader
    exact Option.some.inj (hheader.symm.trans hplanned.read)
  exact ⟨e', target.header, hplanned, hsource.symm, rfl⟩

/-- The forwarder of an added parameter has the old signature. If the default is balanced, what the new
selector answers to `self` is returned in the forwarder, and this is the only statement exactly if the
default is not a bare number with a point that is not between two digits. -/
theorem added_parameter_forwarded (session : Session) (settings : Settings) (r : Request) (p : Plan)
    (h : plan session settings r = .ok p) (hdefault : IsBalanced r.defaultArgument.toList) :
    ∃ header, Header.ofText? p.oldSource = some header ∧ header.selector = r.selector ∧
      (∃ old, Header.ofText? p.compatibilitySource = some old ∧ old.selector = r.selector ∧
        old.arguments = header.arguments) ∧
      (∃ st ∈ (Outline.ofText p.compatibilitySource).statements, st.kind = .returns ∧
        ∃ send ∈ st.sends, send.kind = .keyword ∧
          send.span.start = (header.render ++ "\n" ++ indent ++ "^self ").utf8ByteSize ∧
          send.selector = p.newMethod.selector ∧ send.receiver = .self) ∧
      ((Outline.ofText p.compatibilitySource).statements.length = 1 ↔
        PointsBetweenDigits r.defaultArgument) := by
  obtain ⟨e, header, hplanned, hold, hforwarder⟩ := plan_forwarder h
  obtain ⟨sig, after, hreading⟩ := Header.ofText?_eq_some hplanned.read
  have hwf := hreading.wellFormed
  have hline : ∀ c ∈ header.render.toList, Header.isSignatureChar c = true := fun c hc =>
    (Header.mem_render hwf hc).1
  -- The message is the old keywords with the old arguments, and then the new keyword.
  obtain ⟨words, -, hwords, hparts, hlen⟩ := hwf.exists_words hplanned.kind
  obtain ⟨w, hw, hkeyword⟩ := exists_word hplanned.keyword
  have hextended : (header.extended r.keyword r.argumentName).parts = Selector.keywordsOf (words ++ [w]) := by
    rw [Header.keywordsOf_eq, List.map_append, ← Header.keywordsOf_eq, ← Header.keywordsOf_eq, hkeyword,
      ← hparts]
    rfl
  have htext := toList_forwarder header (header.extended r.keyword r.argumentName)
    (header.arguments ++ [asArgument r.defaultArgument])
  rw [Header.toList_renderWith rfl hextended hlen, ← hforwarder] at htext
  obtain ⟨tokens, j, hmessage, hslices, front, hcut, hfront⟩ :=
    Source.Forwards.exists_message (.ofText p.compatibilitySource) hline
      (Header.isIdentifier_of_mem_zip hwords hwf.arguments) hw htext
  have hdigit : (Source.ofText p.compatibilitySource).byteIs Byte.isDigit
      (String.utf8Len front - 1) = false := by
    rw [hfront]
    exact Source.byte_ne_of_isGap
      (fun _ hb => Cell.isBlank_eq_false_of_isIdent (Byte.isIdent_of_isDigit hb)) hmessage.last.gap
  obtain ⟨hargument, hwhole⟩ := hcut.argument hdefault hdigit
  rw [hfront] at hargument hwhole
  obtain ⟨st, hst, hreturns, send, hsend, hcontains, hkind, hstart, hreceiver, hselector⟩ :=
    hmessage.exists_statement hargument
  have hold' := Header.ofText?_forwarder hwf (header.extended r.keyword r.argumentName)
    (header.arguments ++ [asArgument r.defaultArgument])
  rw [← hforwarder] at hold'
  refine ⟨header, hold ▸ hplanned.read, hplanned.selector, ⟨_, hold', hplanned.selector, rfl⟩, ?_, ?_⟩
  · obtain ⟨st', hst', hsame, hmem⟩ := exists_outlineStatement hst
    refine ⟨st', hst', hsame.trans hreturns, send, hmem send hsend hcontains, hkind, ?_, ?_, hreceiver⟩
    · rw [hstart, ← String.utf8Len_toList]
      simp only [String.toList_append, String.utf8Len_append, Header.utf8Len_signature hline]
      rfl
    · rw [hselector, hslices, List.map_fst_zip (by simp [hlen]), ← Header.keywordsOf_eq, ← hextended,
        hplanned.wellFormed.join_parts, Header.selector_extended hwf, hplanned.selector, hplanned.newMethod]
  · rw [← hwhole, ← hmessage.length_statements hargument]
    simp [Outline.ofText]

/-- A class with a method that has one argument. -/
def indexedCounter : Image :=
  ((Image.empty.defineClass "Counter" (some "Object") "Kernel").perform
    [.compile "Counter" .instanceSide "at: i\n    ^items at: i" "accessing"]).1

/-- The request to add `with:`, with the given default. -/
def requestWith (defaultArgument : String) : Request :=
  ⟨"Counter", .instanceSide, "at:", "with:", "x", defaultArgument, false⟩

theorem isBalanced_sum : IsBalanced "x + 1".toList :=
  ⟨⟨by decide, by decide⟩, by decide⟩

theorem added_parameter_forwarded_sum :
    ∃ p, plan ⟨indexedCounter, []⟩ .standard (requestWith "x + 1") = .ok p ∧
      p.compatibilitySource = "at: i\n    ^self at: i with: (x + 1)" ∧
      (Outline.ofText p.compatibilitySource).statements.length = 1 := by
  have hsource : (plan ⟨indexedCounter, []⟩ .standard (requestWith "x + 1")).map (·.compatibilitySource) =
      .ok "at: i\n    ^self at: i with: (x + 1)" := by decide +kernel
  obtain ⟨p, h, hp⟩ := map_eq_ok.1 hsource
  obtain ⟨header, -, -, -, -, hone⟩ := added_parameter_forwarded _ _ _ p h isBalanced_sum
  exact ⟨p, h, hp, hone.2 fun hnumeral => absurd hnumeral (by decide)⟩

/-- A point that no digit precedes ends the statement. -/
theorem bare_point_cuts_forwarder :
    IsBalanced (requestWith ".5").defaultArgument.toList ∧
      (plan ⟨indexedCounter, []⟩ .standard (requestWith ".5")).map (·.compatibilitySource) =
        .ok "at: i\n    ^self at: i with: .5" ∧
      (Outline.ofText "at: i\n    ^self at: i with: .5").statements.length = 2 :=
  ⟨⟨⟨by decide, by decide⟩, by decide⟩, by decide +kernel, by decide +kernel⟩

end AddParameter

end MethodBrowser
