import MethodBrowser.Proofs.Send.Spelling

/-!
# Renaming keyword sends

The edits that spell the sends of a keyword selector anew are apart, so all of them are carried out
(`Source.spliced_keywordEdits`), and what they do to the words of the keywords is a respelling
(`Source.respells_keywordEdits`). In the new source the keywords of each renamed send spell the new
selector, and all other keywords are spelled as before
(`Respelling.shiftRun_selector`).
-/

namespace MethodBrowser

namespace Edit

/-- The edit of the word of a keyword, without the colon. -/
def wordEdit (e : Edit) : Edit :=
  ⟨Source.wordOf e.span, String.ofList e.replacement.toList.dropLast⟩

/-- The edit spells a keyword of the body anew. -/
structure RespellsKeyword (s : Source) (e : Edit) : Prop where
  body : s.bodyStart ≤ e.span.start
  keyword : s.keywordAt? e.span.start s.size = some e.span
  replacement : ∃ w, e.replacement = String.ofList (w ++ [':']) ∧ isIdentifier w = true

namespace RespellsKeyword

variable {s : Source} {e : Edit}

theorem replacement_eq (h : e.RespellsKeyword s) :
    e.replacement = (wordEdit e).replacement ++ ":" ∧
      isIdentifier (wordEdit e).replacement.toList = true := by
  obtain ⟨w, hw, hident⟩ := h.replacement
  simp only [wordEdit, hw, String.toList_ofList, List.dropLast_concat]
  exact ⟨String.ofList_append, hident⟩

theorem utf8ByteSize (h : e.RespellsKeyword s) :
    e.replacement.utf8ByteSize = (wordEdit e).replacement.utf8ByteSize + 1 := by
  rw [h.replacement_eq.1, String.utf8ByteSize_append]
  rfl

theorem size (h : e.RespellsKeyword s) : e.span.size = (wordEdit e).span.size + 1 := by
  obtain ⟨hword, hend, hstop, -⟩ := Source.isWord_of_keywordAt? h.keyword
  simp only [wordEdit]
  rw [Span.size, ← hstop]
  omega

theorem wordEdit (h : e.RespellsKeyword s) : (wordEdit e).Respells s True := by
  obtain ⟨hword, -, -, hcolon⟩ := Source.isWord_of_keywordAt? h.keyword
  exact ⟨h.body, hword, h.replacement_eq.2, fun _ => hcolon⟩

theorem neutral (h : e.RespellsKeyword s) : e.Neutral s.text.toList := by
  obtain ⟨hword, hend, hstop, hcolon⟩ := Source.isWord_of_keywordAt? h.keyword
  rw [← hend] at hcolon
  obtain ⟨l, w, r, htext, hlen, hsize, hident, hmode⟩ := hword.exists_cut_colon hcolon
  have hplain : ∀ w, isIdentifier w = true → Mode.code.after (w ++ [':']) = .code := by
    intro w hw
    rw [Mode.after_append, after_of_plain fun c hc =>
      isPlain_of_isIdentRest (isIdentRest_of_isIdentifier hw c hc)]
    rfl
  obtain ⟨w', hw', hident'⟩ := h.replacement
  refine ⟨⟨l, w ++ [':'], r, htext, hlen.symm, ?_, hmode, ?_⟩, ?_⟩
  · rw [String.utf8Len_append, utf8Len_of_isIdentifier hident, hlen, hsize, ← hstop, ← hend]
    rfl
  · rw [Mode.after_append, hmode, hplain w hident]
  · rw [hw', String.toList_ofList, hplain w' hident']

end RespellsKeyword

/-- The words of keywords are edited in the same way. -/
theorem Spliced.wordEdits {s : Source} {i : Nat} {es : List Edit} {l old new : List Char}
    (h : Spliced i es old new) (hi : i = String.utf8Len l) (htext : s.text.toList = l ++ old)
    (hes : ∀ e ∈ es, e.RespellsKeyword s) : Spliced i (es.map wordEdit) old new := by
  induction h generalizing l with
  | nil => exact .nil
  | @cons i e es gap word rest rest' hstart hstop hrest ih =>
    rw [List.forall_mem_cons] at hes
    obtain ⟨w, hw, hident⟩ := Source.keyword_spelling hes.1.keyword
    obtain ⟨w', hw', hident'⟩ := hes.1.replacement
    have htext' : s.text.toList = l ++ gap ++ word ++ rest := by rw [htext]; simp
    -- The edited characters are those of the keyword.
    have hslice := Source.slice_of_cut htext'
    rw [String.utf8Len_append, ← hi, ← hstart, ← hstop] at hslice
    obtain rfl : word = w ++ [':'] := String.ofList_injective (hslice.symm.trans hw)
    have hrec := ih (l := l ++ gap ++ (w ++ [':']))
      (by rw [String.utf8Len_append, String.utf8Len_append]; omega) htext' hes.2
    rw [String.utf8Len_append] at hstop
    have hcolon : String.utf8Len [':'] = 1 := rfl
    have htail := hrec.prepend (j := (wordEdit e).span.stop) (g := [':']) (by
      simp only [wordEdit, Source.wordOf]
      omega)
    have hcons : Spliced i ((e :: es).map wordEdit) (gap ++ w ++ ([':'] ++ rest))
        (gap ++ (wordEdit e).replacement.toList ++ ([':'] ++ rest')) :=
      .cons hstart (by simp only [wordEdit, Source.wordOf]; omega) htail
    rw [hw']
    simpa [wordEdit, hw'] using hcons

/-- The colons do not count for the displacement. -/
theorem displace_wordEdits {s : Source} {es : List Edit} (hes : ∀ e ∈ es, e.RespellsKeyword s)
    (k : Nat) : displace (es.map wordEdit) k = displace es k := by
  have hsums : inserted es k + removed (es.map wordEdit) k =
      inserted (es.map wordEdit) k + removed es k := by
    induction es with
    | nil => rfl
    | cons e es ih =>
      rw [List.forall_mem_cons] at hes
      have hrec := ih hes.2
      have hsize := hes.1.size
      have hsize' := hes.1.utf8ByteSize
      have hstart : (wordEdit e).span.start = e.span.start := rfl
      rw [List.map_cons, inserted_cons, inserted_cons, removed_cons, removed_cons, hstart]
      split <;> omega
  simp only [displace]
  omega

end Edit

namespace Source

open Edit

variable {src : Source} {old new : String}

/-- The runs that are renamed. -/
def runsOfSelector (src : Source) (old : String) : List KeywordRun :=
  (src.keywordRuns src.sendRegion).filter (·.selector == old)

theorem mem_runsOfSelector {run : KeywordRun} :
    run ∈ src.runsOfSelector old ↔
      run ∈ src.keywordRuns src.sendRegion ∧ run.selector = old := by
  simp [runsOfSelector]

/-- Each edit is that of a token of a renamed run. -/
theorem mem_keywordEdits {e : Edit} :
    e ∈ src.keywordEdits old new ↔
      ∃ run ∈ src.runsOfSelector old, (e.span, e.replacement) ∈ run.tokens.zip (Selector.tokens new) := by
  simp only [keywordEdits, runsOfSelector, List.mem_flatMap, List.mem_map]
  constructor
  · rintro ⟨run, hrun, ⟨token, part⟩, hmem, rfl⟩
    exact ⟨run, hrun, hmem⟩
  · rintro ⟨run, hrun, hmem⟩
    exact ⟨run, hrun, _, hmem, rfl⟩

theorem token_of_mem_keywordRuns {run : KeywordRun} {token : Span}
    (h : run ∈ src.keywordRuns src.sendRegion) (ht : token ∈ run.tokens) :
    src.bodyStart ≤ token.start ∧ src.keywordAt? token.start src.size = some token := by
  obtain ⟨first, hfirst, hle, rfl, -⟩ := mem_keywordRuns h
  obtain ⟨hle', hk⟩ := mem_keywordRun_tokens hfirst ht
  have hbody := src.bodyStart_le_region
  have hregion : src.sendRegion.span.start = src.statementRegion.start := rfl
  exact ⟨by omega, hk⟩

/-- Both selectors are keyword selectors with equally many keywords. -/
structure SameKeywords (old new : String) : Prop where
  kind_old : Selector.kind? old = some .keyword
  kind_new : Selector.kind? new = some .keyword
  length_eq : (Selector.tokens old).length = (Selector.tokens new).length

theorem respells_keywordEdits (src : Source) (h : SameKeywords old new) :
    ∀ e ∈ src.keywordEdits old new, e.RespellsKeyword src := by
  intro e he
  obtain ⟨run, hrun, hmem⟩ := mem_keywordEdits.1 he
  obtain ⟨htoken, hpart⟩ := List.of_mem_zip hmem
  obtain ⟨hbody, hk⟩ := token_of_mem_keywordRuns (mem_runsOfSelector.1 hrun).1 htoken
  obtain ⟨words, -, hident, hwords⟩ := Selector.tokens_of_keyword h.kind_new
  refine ⟨hbody, hk, ?_⟩
  rw [hwords, Selector.keywordsOf, Selector.withColons, List.map_map] at hpart
  obtain ⟨w, hw, hpart⟩ := List.mem_map.1 hpart
  exact ⟨w, hpart.symm, hident w hw⟩

theorem length_tokens {run : KeywordRun} (hrun : run ∈ src.runsOfSelector old) :
    run.tokens.length = (Selector.tokens old).length := by
  obtain ⟨hmem, rfl⟩ := mem_runsOfSelector.1 hrun
  rw [(keywordRun_spelling hmem).2, List.length_map]

theorem pairwise_zip {α β : Type} {R : α → α → Prop} {as : List α} {bs : List β}
    (h : as.Pairwise R) : (as.zip bs).Pairwise fun p q => R p.1 q.1 := by
  induction h generalizing bs with
  | nil => exact .nil
  | cons hall _ ih =>
    cases bs with
    | nil => exact .nil
    | cons b bs => exact .cons (fun p hp => hall p.1 (List.of_mem_zip hp).1) ih

/-- No two edits start at the same place. -/
theorem pairwise_keywordEdits (src : Source) (old new : String) :
    (src.keywordEdits old new).Pairwise fun a b => a.span.start ≠ b.span.start := by
  rw [keywordEdits, List.pairwise_flatMap]
  constructor
  · intro run hrun
    obtain ⟨first, hfirst, -, rfl, -⟩ := mem_keywordRuns (List.mem_filter.1 hrun).1
    rw [List.pairwise_map]
    exact (pairwise_zip (pairwise_keywordRun_tokens hfirst)).imp fun h => Nat.ne_of_lt h
  · refine ((src.keywordRuns_disjoint src.sendRegion).filter _).imp fun {run run'} h => ?_
    intro a ha b hb
    obtain ⟨p, hp, rfl⟩ := List.mem_map.1 ha
    obtain ⟨q, hq, rfl⟩ := List.mem_map.1 hb
    exact h p.1 (List.of_mem_zip hp).1 q.1 (List.of_mem_zip hq).1

/-- All edits are carried out. -/
theorem spliced_keywordEdits {text : String} (h : SameKeywords old new) :
    Spliced 0 (sorted ((ofText text).keywordEdits old new)) text.toList
      (renameSends text old new).source.toList := by
  have hes := respells_keywordEdits (ofText text) h
  have hapart := apart_sorted (pairwise_keywordEdits (ofText text) old new) fun a ha b hb hlt =>
    keywordAt?_stop_le (hes a ha).keyword (hes b hb).keyword hlt
  have hspliced := exists_applyAll text (fun e he => (hes e he).neutral.hasSpan) hapart
  have hkind : (Selector.kind? old == some .keyword) = true := by rw [h.kind_old]; rfl
  simp only [renameSends, hkind, if_true]
  exact hspliced

end Source

/-! ## The keywords of the new source -/

namespace Alignment

variable {s t : Source} (A : Alignment s t) {token : Span}

/-- A keyword and its word have counterparts. -/
theorem slice_keyword_shift (hmark : A.MarkSpan token)
    (h : s.keywordAt? token.start s.size = some token) :
    t.slice (A.shiftSpan token) = t.slice (A.shiftSpan (Source.wordOf token)) ++ ":" := by
  have hshift := A.keywordAt?_shift hmark.1 A.mark_size
  rw [A.shift_size, h] at hshift
  obtain ⟨word, hw, -, hcolon, htoken⟩ := Source.keywordAt?_eq_some h
  have hstop : token.stop = word.stop + 1 := congrArg Span.stop htoken
  have hwordMark := (A.markSpan_of_wordAt? hmark.1 A.mark_size hw).2
  have hk := A.kept_of_codeAt (by decide) hwordMark hcolon
  have hwordOf : Source.wordOf (A.shiftSpan token) = A.shiftSpan (Source.wordOf token) := by
    simp only [Source.wordOf, shiftSpan, hstop, hk.shift_next, Nat.add_sub_cancel]
  rw [← hwordOf]
  exact Source.slice_keyword hshift

/-- A keyword whose word is kept is spelled alike. -/
theorem slice_keyword_of_kept (hmark : A.MarkSpan token)
    (h : s.keywordAt? token.start s.size = some token) (hkept : A.Kept token.start) :
    t.slice (A.shiftSpan token) = s.slice token := by
  obtain ⟨hword, hend, -, -⟩ := Source.isWord_of_keywordAt? h
  have hspell := A.slice_shift_of_isIdent hmark.1 hkept fun k hk =>
    Source.holds_of_imp (fun _ => Cell.isIdent_of_isWordChar) (hword.chars k hk)
  rw [A.slice_keyword_shift hmark h, Source.slice_keyword h]
  rw [hend] at hspell
  exact congrArg (· ++ ":") hspell.2

theorem shiftRun_selector_eq (run : KeywordRun) :
    (A.shiftRun run).selector =
      String.join (run.tokens.map fun token => t.slice (A.shiftSpan token)) := by
  simp only [shiftRun, List.map_map]
  rfl

/-- A run whose keywords are spelled alike keeps its selector. -/
theorem shiftRun_selector_of_kept {run : KeywordRun} (hrun : run ∈ s.keywordRuns s.sendRegion)
    (h : ∀ token ∈ run.tokens, t.slice (A.shiftSpan token) = s.slice token) :
    (A.shiftRun run).selector = run.selector := by
  rw [shiftRun_selector_eq, List.map_congr_left h]
  obtain ⟨first, -, -, rfl, -⟩ := Source.mem_keywordRuns hrun
  rfl

end Alignment

namespace Respelling

open Edit

variable {s t : Source} {ws : List Edit} {old new : String}

/-- The body is edited by renaming the sends of `old`. -/
structure Renames (s : Source) (ws : List Edit) (old new : String) : Prop where
  mem : ∀ e ∈ s.keywordEdits old new, wordEdit e ∈ ws
  exists_edit : ∀ w ∈ ws, s.bodyStart ≤ w.span.start →
    ∃ e ∈ s.keywordEdits old new, w = wordEdit e

/-- A renamed keyword is spelled anew. -/
theorem slice_renamed (R : Respelling s t ws True) (h : Source.SameKeywords old new)
    (hws : Renames s ws old new) {e : Edit} (he : e ∈ s.keywordEdits old new)
    (hmark : R.alignment.MarkSpan e.span) :
    t.slice (R.alignment.shiftSpan e.span) = e.replacement := by
  have hresp := s.respells_keywordEdits h e he
  rw [R.alignment.slice_keyword_shift hmark hresp.keyword, hresp.replacement_eq.1]
  exact congrArg (· ++ ":") (R.slice_replacement (hws.mem e he) hresp.wordEdit)

/-- A keyword of another send is kept. -/
theorem slice_other (R : Respelling s t ws True) (hws : Renames s ws old new) {run : KeywordRun}
    (hrun : run ∈ s.keywordRuns s.sendRegion) (hne : run.selector ≠ old) {token : Span}
    (ht : token ∈ run.tokens) (hmark : R.alignment.MarkSpan token) :
    t.slice (R.alignment.shiftSpan token) = s.slice token := by
  obtain ⟨hbody, hk⟩ := Source.token_of_mem_keywordRuns hrun ht
  refine R.alignment.slice_keyword_of_kept hmark hk ?_
  have hlt : token.start < s.size := by
    obtain ⟨word, hw, -⟩ := Source.keywordAt?_eq_some hk
    exact (Source.wordAt?_eq_some hw).1
  refine R.kept hmark.1 hlt (R.untouched_of_clear hbody hmark.1.2.2 fun w hw hresp heq => ?_)
  -- An edit that starts here belongs to a run of `old`, and runs share no keywords.
  obtain ⟨e, he, rfl⟩ := hws.exists_edit w hw hresp.body
  obtain ⟨run', hrun', hmem⟩ := Source.mem_keywordEdits.1 he
  obtain ⟨hrun', hsel⟩ := Source.mem_runsOfSelector.1 hrun'
  obtain rfl := Source.eq_of_start_eq hrun hrun' ht (List.of_mem_zip hmem).1 heq.symm
  exact hne hsel

/-- The keywords of the new source spell the renamed selector or the old one. -/
theorem shiftRun_selector (R : Respelling s t ws True) (h : Source.SameKeywords old new)
    (hws : Renames s ws old new) :
    ∀ run ∈ s.keywordRuns s.sendRegion, (R.alignment.shiftRun run).selector =
      if run.selector = old then new else run.selector := by
  intro run hrun
  have hsteady := R.alignment.steady_of_keyword trivial
  have hmarks := ((R.alignment.keywordRuns_shift hsteady).2 run hrun).tokens
  split
  · next hold =>
    have hrun' : run ∈ s.runsOfSelector old := Source.mem_runsOfSelector.2 ⟨hrun, hold⟩
    have hlen : run.tokens.length = (Selector.tokens new).length := by
      rw [Source.length_tokens hrun', h.length_eq]
    have hzip : run.tokens.map (fun token => t.slice (R.alignment.shiftSpan token)) =
        Selector.tokens new := by
      rw [← List.map_fst_zip (Nat.le_of_eq hlen), List.map_map]
      conv_rhs => rw [← List.map_snd_zip (Nat.le_of_eq hlen.symm)]
      refine List.map_congr_left fun p hp => ?_
      exact R.slice_renamed h hws (e := ⟨p.1, p.2⟩) (Source.mem_keywordEdits.2 ⟨run, hrun', hp⟩)
        (hmarks p.1 (List.of_mem_zip hp).1)
    rw [Alignment.shiftRun_selector_eq, hzip, Selector.join_tokens h.kind_new]
  · next hne =>
    exact R.alignment.shiftRun_selector_of_kept hrun fun token htoken =>
      R.slice_other hws hrun hne htoken (hmarks token htoken)

end Respelling

end MethodBrowser
