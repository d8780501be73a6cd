import MethodBrowser.Outline
import MethodBrowser.Proofs.AlignedStatements
import MethodBrowser.Proofs.Edit.KeywordEdits

/-!
# What renaming a keyword selector keeps

Renaming a keyword selector changes the spelling of the keywords of its sends and nothing else
(`renameSends_keyword`). The sends of the new text are those of the old one, one by one: of the same
kind, with the same receiver and number of tokens, carried along by the edits before them. The
statements are the same in number and kind.

The proof has no case for any construct of the language. It shows that the edits are a respelling
of words that a colon follows, and everything the scanners find is transported along it.
-/

namespace MethodBrowser

open Edit

/-- What it means to rename the sends of the keyword selector `old` in a text. -/
structure KeywordRename (text out old new : String) : Prop where
  /-- The sends of `old` are the runs of `old`. -/
  sends_old : ((Source.ofText text).sendsOf (some old)).Perm
    (((Source.ofText text).runsOfSelector old).map KeywordRun.toSend)
  /-- Each of them has as many keywords as `new`. -/
  arity : ∀ run ∈ (Source.ofText text).runsOfSelector old,
    run.tokens.length = (Selector.parts new).length
  /-- Each keyword is replaced by the one of `new` at its place, and all other text is copied. -/
  spliced : ∃ es, es.Perm (((Source.ofText text).runsOfSelector old).flatMap fun run =>
      List.zipWith Edit.mk run.tokens (Selector.parts new)) ∧
    Spliced 0 es text.toList out.toList
  /-- The same sends are found, displaced by the edits and with `new` for `old`. -/
  sends : (Source.ofText out).sends = (Source.ofText text).sends.map fun send =>
    { send with
      selector := if send.selector = old then new else send.selector
      span := ⟨displace ((Source.ofText text).keywordEdits old new) send.span.start,
        displace ((Source.ofText text).keywordEdits old new) send.span.stop⟩ }
  /-- The same kinds of statements are found. -/
  statements : (Outline.ofText out).statements.map (·.kind) =
    (Outline.ofText text).statements.map (·.kind)

namespace Source

variable {src : Source} {old new : String}

/-- The sends of a keyword selector are its runs. -/
theorem sendsOf_keyword (h : Selector.kind? old = some .keyword) :
    (src.sendsOf (some old)).Perm ((src.runsOfSelector old).map KeywordRun.toSend) := by
  have hsorted : src.sends.Perm
      (src.keywordSends src.sendRegion ++ src.simpleSends src.sendRegion) :=
    List.mergeSort_perm ..
  have hsimple : (src.simpleSends src.sendRegion).filter (·.selector == old) = [] := by
    rw [List.filter_eq_nil_iff]
    intro send hsend
    simpa using simpleSend_ne_keyword hsend h
  have hfilter := hsorted.filter (·.selector == old)
  rw [List.filter_append, hsimple, List.append_nil, keywordSends_eq, List.filter_map] at hfilter
  exact hfilter

theorem keywordEdits_eq (h : Selector.kind? new = some .keyword) :
    src.keywordEdits old new = (src.runsOfSelector old).flatMap fun run =>
      List.zipWith Edit.mk run.tokens (Selector.parts new) := by
  have htokens : Selector.tokens new = Selector.parts new := by simp [Selector.tokens, h]
  simp only [keywordEdits, runsOfSelector, htokens, List.map_zip_eq_zipWith]
  rfl

end Source

/-! ## The theorem -/

namespace Alignment

variable {s t : Source} (A : Alignment s t)

/-- The ends of all sends have counterparts. -/
theorem markSpan_of_mem_sends (hkey : A.keyword) {send : Send} (h : send ∈ s.sends) :
    A.MarkSpan send.span := by
  rcases Source.mem_sends.1 h with hmem | hmem
  · rw [Source.keywordSends_eq] at hmem
    obtain ⟨run, hrun, rfl⟩ := List.mem_map.1 hmem
    exact (A.shiftRun_span ((A.keywordRuns_shift (A.steady_of_keyword hkey)).2 run hrun).tokens).2
  · exact A.mark_of_moved A.simpleSends_shift send hmem

end Alignment

theorem kind_statements_outline (text : String) :
    (Outline.ofText text).statements.map (·.kind) =
      (Source.ofText text).statements.map (·.kind) := by
  refine List.ext_getElem (by simp [Outline.ofText]) fun i h₁ h₂ => ?_
  simp [Outline.ofText, OutlineStatement.ofStatement]

/-- Renaming a keyword selector respells words of the text: its keywords without their colons. -/
theorem respells_keyword (text : String) {old new : String} (h : Source.SameKeywords old new) :
    ∃ ws, Spliced 0 ws text.toList (renameSends text old new).source.toList ∧
      (∀ w ∈ ws, w.Respells (.ofText text) True) ∧
      Respelling.Renames (.ofText text) ws old new ∧
      ∀ k, displace ws k = displace ((Source.ofText text).keywordEdits old new) k := by
  have hes : ∀ e ∈ sorted ((Source.ofText text).keywordEdits old new),
      e.RespellsKeyword (.ofText text) := fun e he =>
    (Source.ofText text).respells_keywordEdits h e ((sorted_perm _).mem_iff.1 he)
  refine ⟨(sorted ((Source.ofText text).keywordEdits old new)).map wordEdit,
    (Source.spliced_keywordEdits h).wordEdits (l := []) rfl rfl hes, ?_, ⟨?_, ?_⟩, ?_⟩
  · intro w hw
    obtain ⟨e, he, rfl⟩ := List.mem_map.1 hw
    exact (hes e he).wordEdit
  · intro e he
    exact List.mem_map_of_mem ((sorted_perm _).mem_iff.2 he)
  · intro w hw _
    obtain ⟨e, he, rfl⟩ := List.mem_map.1 hw
    exact ⟨e, (sorted_perm _).mem_iff.1 he, rfl⟩
  · intro k
    rw [displace_wordEdits (s := .ofText text) hes k, displace_perm (sorted_perm _) k]

theorem applyAll_nil (text : String) : applyAll text [] = text := by
  simp [applyAll, splice, String.extract_zero_rawEndPos]

theorem keywordEdits_of_oneLine {text old new : String} (h : '\n' ∉ text.toList) :
    (Source.ofText text).keywordEdits old new = [] := by
  have hsends : (Source.ofText text).sends = [] := Source.sends_of_oneLine h
  have hruns : (Source.ofText text).keywordRuns (Source.ofText text).sendRegion = [] := by
    by_contra hne
    obtain ⟨run, hrun⟩ := List.exists_mem_of_ne_nil _ hne
    have hmem : run.toSend ∈ (Source.ofText text).sends := by
      rw [Source.mem_sends, Source.keywordSends_eq]
      exact .inl (List.mem_map_of_mem hrun)
    simp [hsends] at hmem
  simp [Source.keywordEdits, hruns]

/-- A text of one line is left alone. -/
theorem renameSends_of_oneLine {text : String} (old new : String) (h : '\n' ∉ text.toList) :
    (renameSends text old new).source = text := by
  have hsends : (Source.ofText text).sends = [] := Source.sends_of_oneLine h
  simp only [renameSends]
  split
  · simp only [keywordEdits_of_oneLine h, applyAll_nil]
  · simp only [Source.simpleEdits, hsends, List.filter_nil, List.map_nil, applyAll_nil]

/-- The sends of a renamed text. -/
theorem sends_renameSends {text old new : String} (h : Source.SameKeywords old new) :
    (Source.ofText (renameSends text old new).source).sends =
      (Source.ofText text).sends.map fun send =>
        { send with
          selector := if send.selector = old then new else send.selector
          span := ⟨displace ((Source.ofText text).keywordEdits old new) send.span.start,
            displace ((Source.ofText text).keywordEdits old new) send.span.stop⟩ } := by
  by_cases hline : '\n' ∈ text.toList
  · obtain ⟨ws, hspliced, hresp, hws, hdisplaced⟩ := respells_keyword text h
    have R : Respelling (.ofText text) (.ofText (renameSends text old new).source) ws True :=
      .of_spliced hspliced hresp hline
    have hsends := R.alignment.sends_shift_of_keyword trivial
      (φ := fun selector => if selector = old then new else selector) (R.shiftRun_selector h hws)
      fun send hsend => if_neg (Source.simpleSend_ne_keyword hsend h.kind_old)
    rw [hsends]
    refine List.map_congr_left fun send hsend => ?_
    have hmark := R.alignment.markSpan_of_mem_sends trivial hsend
    have hdisplace : ∀ k, R.alignment.mark k → R.alignment.shift k =
        displace ((Source.ofText text).keywordEdits old new) k := by
      intro k hk
      rw [← hdisplaced k]
      exact R.spliced.moved_eq hk.2.2
    rw [Alignment.shiftSend, Alignment.shiftSpan, hdisplace _ hmark.1, hdisplace _ hmark.2]
  · rw [renameSends_of_oneLine old new hline, Source.sends_of_oneLine hline]
    rfl

/-- The statements of a renamed text. -/
theorem statements_renameSends {text old new : String} (h : Source.SameKeywords old new) :
    (Outline.ofText (renameSends text old new).source).statements.map (·.kind) =
      (Outline.ofText text).statements.map (·.kind) := by
  by_cases hline : '\n' ∈ text.toList
  · obtain ⟨ws, hspliced, hresp, -⟩ := respells_keyword text h
    have R : Respelling (.ofText text) (.ofText (renameSends text old new).source) ws True :=
      .of_spliced hspliced hresp hline
    rw [kind_statements_outline, kind_statements_outline,
      R.alignment.statements_shift (R.alignment.steady_of_keyword trivial), List.map_map]
    rfl
  · rw [renameSends_of_oneLine old new hline]

/-- Renaming a keyword selector preserves the analysed structure of a text. -/
theorem renameSends_keyword (text old new : String)
    (hold : Selector.kind? old = some .keyword) (hnew : Selector.kind? new = some .keyword)
    (harity : Selector.arity old = Selector.arity new) :
    KeywordRename text (renameSends text old new).source old new := by
  have h : Source.SameKeywords old new :=
    ⟨hold, hnew, by simpa [Selector.arity, Selector.tokens, hold, hnew] using harity⟩
  have htokens : Selector.tokens new = Selector.parts new := by simp [Selector.tokens, hnew]
  refine ⟨Source.sendsOf_keyword hold, fun run hrun => ?_, ?_, sends_renameSends h,
    statements_renameSends h⟩
  · rw [Source.length_tokens hrun, h.length_eq, htokens]
  · refine ⟨sorted ((Source.ofText text).keywordEdits old new), ?_, Source.spliced_keywordEdits h⟩
    rw [← Source.keywordEdits_eq hnew]
    exact sorted_perm _

theorem renameSends_keyword_at_put :
    Selector.kind? "at:put:" = some .keyword ∧ Selector.kind? "index:value:" = some .keyword ∧
      KeywordRename "store\n^d at: (d at: 1 put: 2) put: 3"
        (renameSends "store\n^d at: (d at: 1 put: 2) put: 3" "at:put:" "index:value:").source
        "at:put:" "index:value:" :=
  ⟨by decide, by decide, renameSends_keyword _ _ _ (by decide) (by decide) (by decide)⟩

end MethodBrowser
