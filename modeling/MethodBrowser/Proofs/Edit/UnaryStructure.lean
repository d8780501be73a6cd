import MethodBrowser.Proofs.Edit.RenameComplete

/-!
# What renaming a unary selector keeps

Renaming a unary selector spells words of the body anew. Its unary and binary sends stay the same one
by one, apart from the renamed selector. Keyword sends and statements are bounded by periods, and a
period between two digits is read as a decimal point. So they stay the same if the periods keep their
roles (`renameSends_unary`).

**What can change.** A selector with a digit at its end may come to stand before a period that a
digit follows. In `y foo.1 put: 2` two statements meet; in `y foo1.1 put: 2` the period is a decimal
point, and there is one (`renameSends_unary_merges`). Blanks around the period prevent this.
-/

namespace MethodBrowser

open Edit

/-! ## Periods -/

/-- The last character of a name is a digit. -/
def endsInDigit (name : String) : Bool := name.toList.getLast?.any Char.isDigit

namespace Source

variable {src : Source} {i n : Nat}

/-- A period stands at `i` and a digit right after it. -/
def pointAt (src : Source) (i : Nat) : Bool := src.codeAt i '.' && src.byteIs Byte.isDigit (i + 1)

/-- No period changes its role when `old` is spelled `new`: both end in a digit or both do not, or no
send of `old` stands right before a period that a digit follows. -/
def KeepsPeriods (src : Source) (old new : String) : Prop :=
  endsInDigit old = endsInDigit new ∨
    ∀ send ∈ src.sends, send.selector = old → src.pointAt send.span.stop = false

/-- The sends are looked at before they are sorted, since sorting does not evaluate. -/
instance (src : Source) (old new : String) : Decidable (src.KeepsPeriods old new) :=
  decidable_of_iff (endsInDigit old = endsInDigit new ∨
    ∀ send ∈ src.keywordSends src.sendRegion ++ src.simpleSends src.sendRegion,
      send.selector = old → src.pointAt send.span.stop = false) <| by
    simp only [KeepsPeriods, mem_sends, List.mem_append]

/-- The last character of a word. -/
theorem IsWord.isDigit_last (h : src.IsWord i n) :
    src.byteIs Byte.isDigit (i + n - 1) = endsInDigit (src.slice ⟨i, i + n⟩) := by
  obtain ⟨l, w, r, htext, rfl, rfl, hident, -⟩ := h.exists_cut
  have hpos := h.pos
  have hascii : ∀ c ∈ w, IsAscii c := fun c hc =>
    isAscii_of_isIdentRest (isIdentRest_of_isIdentifier hident c hc)
  have hcell := cells_of_cut (k := w.length - 1) htext hascii (by omega)
  have hlast : w.getLast? = some (w.get ⟨w.length - 1, by omega⟩) := by
    rw [List.getLast?_eq_getElem?, List.getElem?_eq_getElem]
    rfl
  rw [← utf8Len_of_isIdentifier hident, slice_of_cut htext, utf8Len_of_isIdentifier hident,
    Nat.add_sub_assoc hpos, byteIs, holds, hcell, endsInDigit, String.toList_ofList, hlast,
    Option.any_some, Option.any_some, Byte.isDigit, (hascii _ (List.get_mem ..)).ofUInt8]

/-- Two words that start together end together. -/
theorem IsWord.size_eq {m : Nat} (h : src.IsWord i n) (h' : src.IsWord i m) : n = m := by
  have hn := lt_size_of_holds h.last
  have hm := lt_size_of_holds h'.last
  have hend := h.identEnd (l := src.size) (by omega)
  have hend' := h'.identEnd (l := src.size) (by omega)
  omega

/-- No colon follows a unary send. -/
theorem not_colon_of_unary {send : Send} (h : send ∈ src.simpleSends src.sendRegion)
    (hunary : send.kind = .unary) : src.codeAt send.span.stop ':' = false := by
  obtain ⟨r, j, -, hsend⟩ := mem_simpleSends h
  simp only [sendAfter?] at hsend
  split at hsend
  · split at hsend
    · simp at hsend
    · next hcolon =>
      obtain rfl := Option.some.inj hsend
      simpa using hcolon
  · obtain ⟨token, -, rfl⟩ := Option.map_eq_some_iff.1 hsend
    simp at hunary

end Source

/-! ## Respellings of unary sends -/

namespace Respelling

variable {s t : Source} {ws : List Edit} {old new : String}

/-- Before a period, only the end of a renamed send is read differently. -/
theorem steady_unary (R : Respelling s t ws False) (hws : RenamesUnary s ws old new)
    (hkeeps : s.KeepsPeriods old new) : R.alignment.Steady := by
  intro i hi hperiod hdigit
  by_cases hstop : ∃ e ∈ ws, e.Respells s False ∧ e.span.stop = i
  · obtain ⟨e, he, hresp, rfl⟩ := hstop
    obtain ⟨a, ha, rfl, rfl⟩ := Source.mem_simpleEdits.1 ((hws e hresp.body).1 he)
    have hend := R.spliced.moved_stop R.proper he
    have hlast := (R.isWord_replacement he hresp).isDigit_last
    have hlast' := hresp.word.isDigit_last
    obtain ⟨r, j, -, hsend⟩ := Source.mem_simpleSends ha
    rw [← hend, R.slice_replacement he hresp] at hlast
    rw [hresp.stop_eq, ← (Source.sendAfter?_spelling hsend).1] at hlast'
    rcases hkeeps with hsame | hnone
    · exact hlast.trans (hsame.symm.trans hlast'.symm)
    · have hpoint := hnone a (Source.mem_sends.2 (.inr ha)) rfl
      rw [Source.pointAt, hperiod, hdigit] at hpoint
      simp at hpoint
  · have hbody := hi.1
    have hpos := R.bodyStart_pos
    have huntouched := R.untouched_pred hi.1 hi.2.2 fun e he hresp heq =>
      hstop ⟨e, he, hresp, heq⟩
    have hpred := R.moved_pred (by omega) huntouched
    have hcell := R.getElem?_moved huntouched
    rw [show moved 0 ws (i - 1) = moved 0 ws i - 1 by omega] at hcell
    exact Source.holds_congr hcell

/-- No keyword is respelled. -/
theorem slice_keyword_unary (R : Respelling s t ws False) (hold : Selector.kind? old = some .unary)
    (hws : RenamesUnary s ws old new) {run : KeywordRun}
    (hrun : run ∈ s.keywordRuns s.sendRegion) {token : Span} (ht : token ∈ run.tokens)
    (hmark : R.alignment.MarkSpan token) :
    t.slice (R.alignment.shiftSpan token) = s.slice token := by
  obtain ⟨hbody, hk⟩ := Source.token_of_mem_keywordRuns hrun ht
  obtain ⟨hword, hend, -, hcolon⟩ := Source.isWord_of_keywordAt? hk
  refine R.alignment.slice_keyword_of_kept hmark hk ?_
  refine R.kept hmark.1 (Source.lt_size_of_holds hword.letter)
    (R.untouched_of_clear hbody hmark.1.2.2 fun w hw hresp heq => ?_)
  -- A renamed send that starts here would end at the colon of the keyword.
  obtain ⟨a, ha, rfl, rfl⟩ := Source.mem_simpleEdits.1 ((hws w hresp.body).1 hw)
  obtain ⟨hunary, hword', hend'⟩ :=
    Source.isWord_of_mem_simpleSends ha (Selector.kind?_eq_unary_iff.1 hold)
  have hsize := hword.size_eq (heq ▸ hword')
  have hstop : a.span.stop = (Source.wordOf token).stop := by
    simp only at heq
    omega
  rw [← hstop, Source.not_colon_of_unary ha hunary] at hcolon
  simp at hcolon

/-- Keyword sends keep their selectors. -/
theorem shiftRun_selector_unary (R : Respelling s t ws False)
    (hold : Selector.kind? old = some .unary) (hws : RenamesUnary s ws old new)
    (hsteady : R.alignment.Steady) :
    ∀ run ∈ s.keywordRuns s.sendRegion, (R.alignment.shiftRun run).selector =
      if run.selector = old then new else run.selector := by
  intro run hrun
  have hmarks := ((R.alignment.keywordRuns_shift hsteady).2 run hrun).tokens
  have hne : run.selector ≠ old := by
    rintro rfl
    simp [(Source.keywordRun_spelling hrun).1] at hold
  rw [if_neg hne]
  exact R.alignment.shiftRun_selector_of_kept hrun fun token htoken =>
    R.slice_keyword_unary hold hws hrun htoken (hmarks token htoken)

/-- The unary and binary sends of the new source. -/
theorem simpleSends_unary (R : Respelling s t ws False) (hold : Selector.kind? old = some .unary)
    (hnew : Selector.kind? new = some .unary) (hws : RenamesUnary s ws old new) :
    List.Forall₂ (R.alignment.Renamed fun selector => if selector = old then new else selector)
      (s.simpleSends s.sendRegion) (t.simpleSends t.sendRegion) :=
  R.alignment.forall₂_renamed R.alignment.simpleSends_shift fun _ ha _ hb hab =>
    R.selector_of_moved hold hnew hws ha hb hab

end Respelling

/-! ## Unary and binary sends in order -/

namespace Source

/-- The unary and binary sends among all sends. -/
theorem filter_sends (src : Source) :
    src.sends.filter (·.kind != .keyword) =
      (src.simpleSends src.sendRegion).mergeSort fun a b => a.span.le b.span := by
  have hperm := src.filter_sends_perm
  -- Both lists are sorted, and no two of these sends have the same span.
  have hleft : (src.sends.filter (·.kind != .keyword)).Pairwise fun a b => a.span.le b.span = true :=
    (Span.pairwise_mergeSort Send.span _).filter _
  refine List.Perm.eq_of_pairwise (fun a b ha hb hab hba => ?_) hleft
    (Span.pairwise_mergeSort Send.span _) (hperm.trans (List.mergeSort_perm ..).symm)
  rw [Span.le_iff] at hab hba
  exact simpleSend_eq_of_start_eq (hperm.mem_iff.1 ha) (List.mem_mergeSort.1 hb) (by omega)

end Source

/-! ## The theorem -/

/-- A send and its counterpart after `old` is renamed to `new`, receivers left aside. -/
structure Send.Renamed (old new : String) (a b : Send) : Prop where
  kind : b.kind = a.kind
  tokens : b.tokens = a.tokens
  selector : b.selector = if a.selector = old then new else a.selector

/-- What it means to rename the sends of the unary selector `old` in a text. -/
structure UnaryRename (text out old new : String) : Prop where
  /-- The unary and binary sends are the same in number and order. -/
  simple : List.Forall₂ (Send.Renamed old new)
    ((Outline.ofText text).sends.filter (·.kind != .keyword))
    ((Outline.ofText out).sends.filter (·.kind != .keyword))
  /-- If the periods keep their roles, all sends are. -/
  sends : (Source.ofText text).KeepsPeriods old new →
    List.Forall₂ (Send.Renamed old new) (Outline.ofText text).sends (Outline.ofText out).sends
  /-- If the periods keep their roles, there are as many statements. -/
  statements : (Source.ofText text).KeepsPeriods old new →
    (Outline.ofText out).statements.length = (Outline.ofText text).statements.length

theorem Alignment.Renamed.send {s t : Source} {A : Alignment s t} {old new : String} {a b : Send}
    (h : A.Renamed (fun selector => if selector = old then new else selector) a b) :
    a.Renamed old new b :=
  ⟨h.kind, h.tokens, h.selector⟩

theorem length_statements_outline (text : String) :
    (Outline.ofText text).statements.length = (Source.ofText text).statements.length := by
  simp [Outline.ofText]

theorem length_sends_outline (text : String) :
    (Outline.ofText text).sends.length =
      ((Source.ofText text).keywordSends (Source.ofText text).sendRegion).length +
        ((Source.ofText text).simpleSends (Source.ofText text).sendRegion).length := by
  simp [Outline.ofText, Source.sends]

/-- Renaming a unary selector preserves the analysed structure of a text as far as the periods keep
their roles. -/
theorem renameSends_unary (text old new : String)
    (hold : Selector.kind? old = some .unary) (hnew : Selector.kind? new = some .unary) :
    UnaryRename text (renameSends text old new).source old new := by
  by_cases hline : '\n' ∈ text.toList
  · obtain ⟨ws, hspliced, hresp, hws⟩ := respells_unary text hold hnew
    have R : Respelling (.ofText text) (.ofText (renameSends text old new).source) ws False :=
      .of_spliced hspliced hresp hline
    have hsimple := R.simpleSends_unary hold hnew hws
    refine ⟨?_, fun hkeeps => ?_, fun hkeeps => ?_⟩
    · change List.Forall₂ _ ((Source.ofText text).sends.filter _) ((Source.ofText _).sends.filter _)
      rw [Source.filter_sends, Source.filter_sends]
      exact (R.alignment.renamed_mergeSort hsimple).imp fun _ _ => Alignment.Renamed.send
    · have hruns := R.shiftRun_selector_unary hold hws (R.steady_unary hws hkeeps)
      exact (R.alignment.sends_shift (R.steady_unary hws hkeeps) hruns hsimple).imp fun _ _ =>
        Alignment.Renamed.send
    · rw [length_statements_outline, length_statements_outline,
        R.alignment.statements_shift (R.steady_unary hws hkeeps), List.length_map]
  · -- There are no sends in a text of one line.
    have hsends : (Source.ofText text).sends = [] := Source.sends_of_oneLine hline
    have hnil : (Outline.ofText text).sends = [] := hsends
    rw [renameSends_of_oneLine old new hline]
    refine ⟨?_, fun _ => ?_, fun _ => rfl⟩
    · rw [hnil]
      exact .nil
    · rw [hnil]
      exact .nil

theorem renameSends_unary_value :
    Selector.kind? "value" = some .unary ∧ Selector.kind? "value2" = some .unary ∧
      (Source.ofText "run\nx at: y value. 1 put: 2").KeepsPeriods "value" "value2" ∧
      List.Forall₂ (Send.Renamed "value" "value2")
        (Outline.ofText "run\nx at: y value. 1 put: 2").sends
        (Outline.ofText
          (renameSends "run\nx at: y value. 1 put: 2" "value" "value2").source).sends :=
  ⟨by decide, by decide, by decide +kernel,
    (renameSends_unary _ _ _ (by decide) (by decide)).sends (by decide +kernel)⟩

/-- A text in which a single send is renamed. -/
theorem renameSends_single {text old new : String} {e : Edit}
    (hold : Selector.kind? old = some .unary)
    (h : (((Source.ofText text).simpleSends (Source.ofText text).sendRegion).filter
      (·.selector == old)).map (fun send => (⟨send.span, new⟩ : Edit)) = [e]) :
    (renameSends text old new).source = applyAll text [e] := by
  have hperm := (Source.ofText text).simpleEdits_perm old new
  rw [h, List.perm_singleton] at hperm
  have hkind : (Selector.kind? old == some .keyword) = false := by rw [hold]; rfl
  simp only [renameSends, hkind, Bool.false_eq_true, if_false, hperm]

/-- Where a digit comes to stand before a period, two statements become one, and so do the two
keyword sends `at:` and `put:`. -/
theorem renameSends_unary_merges :
    Selector.kind? "foo" = some .unary ∧ Selector.kind? "foo1" = some .unary ∧ "foo" ≠ "foo1" ∧
      (Outline.ofText
          (renameSends "run\nx at: y foo.1 put: 2" "foo" "foo1").source).statements.length ≠
        (Outline.ofText "run\nx at: y foo.1 put: 2").statements.length ∧
      ¬List.Forall₂ (Send.Renamed "foo" "foo1") (Outline.ofText "run\nx at: y foo.1 put: 2").sends
        (Outline.ofText (renameSends "run\nx at: y foo.1 put: 2" "foo" "foo1").source).sends := by
  have hout : (renameSends "run\nx at: y foo.1 put: 2" "foo" "foo1").source =
      "run\nx at: y foo1.1 put: 2" := by
    rw [renameSends_single (e := ⟨⟨12, 15⟩, "foo1"⟩) (by decide) (by decide +kernel)]
    decide +kernel
  rw [hout]
  refine ⟨by decide, by decide, by decide, ?_, fun h => ?_⟩
  · rw [length_statements_outline, length_statements_outline]
    decide +kernel
  · have hlen := h.length_eq
    rw [length_sends_outline, length_sends_outline] at hlen
    exact absurd hlen (by decide +kernel)

end MethodBrowser
