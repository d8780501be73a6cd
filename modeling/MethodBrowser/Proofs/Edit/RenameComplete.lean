import MethodBrowser.Proofs.Edit.RenameStructure
import MethodBrowser.Proofs.Edit.UnaryEdits
import MethodBrowser.Proofs.Header.FirstLine

/-!
# Renaming leaves no send behind

After a unary or keyword selector is renamed in a text, no send of it is found there
(`sendsSelector_renameSends`), also if the header is renamed, too (`sendsSelector_renameMethod?`).

**Why this is not plain.** The new text is read afresh, and all its offsets are others. A respelling
carries each send over to its place in the new text, so a send of the old selector there would come
from one here, whose spelling was changed.

A renamed text keeps its header (`ofText?_renameSends`), and a renamed method gets a header that
spells the new selector (`ofText?_renameMethod?`).
-/

namespace MethodBrowser

open Edit

variable {text old new : String}

/-! ## Respellings that rename -/

namespace Respelling

variable {s t : Source} {ws : List Edit}

/-- No keyword send of the old selector is left. -/
theorem sendsSelector_keyword (R : Respelling s t ws True) (h : Source.SameKeywords old new)
    (hws : Renames s ws old new) (hne : old ≠ new) : t.sendsSelector old = false := by
  have hsends := R.alignment.sends_shift_of_keyword trivial
    (φ := fun selector => if selector = old then new else selector)
    (R.shiftRun_selector h hws)
    fun send hsend => if_neg (Source.simpleSend_ne_keyword hsend h.kind_old)
  rw [Source.sendsSelector, hsends, List.any_eq_false]
  intro send hsend
  obtain ⟨send, -, rfl⟩ := List.mem_map.1 hsend
  simp only [Alignment.shiftSend, beq_iff_eq]
  split
  · exact hne.symm
  · next hother => exact hother

/-- The counterpart of each send of the new source. -/
theorem exists_moved (A : Alignment s t) {b : Send} (hb : b ∈ t.simpleSends t.sendRegion) :
    ∃ a ∈ s.simpleSends s.sendRegion, A.Moved a b := by
  obtain ⟨i, hi, rfl⟩ := List.getElem_of_mem hb
  have hlen := A.simpleSends_shift.length_eq
  exact ⟨_, List.getElem_mem (by omega), A.simpleSends_shift.get (by omega) hi⟩

/-- No unary send of the old selector is left. -/
theorem sendsSelector_unary (R : Respelling s t ws False)
    (hold : Selector.kind? old = some .unary) (hnew : Selector.kind? new = some .unary)
    (hws : RenamesUnary s ws old new) (hne : old ≠ new) : t.sendsSelector old = false := by
  rw [Source.sendsSelector, List.any_eq_false]
  intro b hb
  rw [beq_iff_eq]
  rintro rfl
  rcases Source.mem_sends.1 hb with hmem | hmem
  · rw [Source.keywordSends_eq] at hmem
    obtain ⟨run, hrun, rfl⟩ := List.mem_map.1 hmem
    have hkeyword : Selector.kind? run.toSend.selector = some .keyword :=
      (Source.keywordRun_spelling hrun).1
    simp [hold] at hkeyword
  · obtain ⟨a, ha, hab⟩ := exists_moved R.alignment hmem
    have hselector := R.selector_of_moved hold hnew hws ha hmem hab
    split at hselector
    · exact hne hselector
    · next hother => exact hother hselector.symm

end Respelling

/-! ## Sends -/

/-- Both selectors are unary, or both are keyword selectors of one arity. -/
inductive SameShape (old new : String) : Prop
  | unary : Selector.kind? old = some .unary → Selector.kind? new = some .unary → SameShape old new
  | keyword : Source.SameKeywords old new → SameShape old new

/-- Renaming a unary selector respells words of the text, which are its sends. -/
theorem respells_unary (text : String) (hold : Selector.kind? old = some .unary)
    (hnew : Selector.kind? new = some .unary) :
    ∃ ws, Spliced 0 ws text.toList (renameSends text old new).source.toList ∧
      (∀ w ∈ ws, w.Respells (.ofText text) False) ∧
      Respelling.RenamesUnary (.ofText text) ws old new := by
  refine ⟨sorted ((Source.ofText text).simpleEdits old new), Source.spliced_simpleEdits hold hnew,
    fun e he => ?_, fun w _ => (sorted_perm _).mem_iff⟩
  exact (Source.ofText text).respells_simpleEdits hold hnew e ((sorted_perm _).mem_iff.1 he)

theorem sendsSelector_of_oneLine (h : '\n' ∉ text.toList) (selector : String) :
    (Source.ofText text).sendsSelector selector = false := by
  have hsends : (Source.ofText text).sends = [] := Source.sends_of_oneLine h
  simp [Source.sendsSelector, hsends]

/-- No send of the old selector is found in a renamed text. -/
theorem sendsSelector_renameSends (text : String) (h : SameShape old new) (hne : old ≠ new) :
    (Source.ofText (renameSends text old new).source).sendsSelector old = false := by
  by_cases hline : '\n' ∈ text.toList
  · cases h with
    | unary hold hnew =>
      obtain ⟨ws, hspliced, hresp, hws⟩ := respells_unary text hold hnew
      exact (Respelling.of_spliced hspliced hresp hline).sendsSelector_unary hold hnew hws hne
    | keyword h =>
      obtain ⟨ws, hspliced, hresp, hws, -⟩ := respells_keyword text h
      exact (Respelling.of_spliced hspliced hresp hline).sendsSelector_keyword h hws hne
  · rw [renameSends_of_oneLine old new hline]
    exact sendsSelector_of_oneLine hline old

/-! ## Replacements -/

theorem tokens_ne_nil {selector : String} (h : Selector.kind? selector = some .keyword) :
    0 < (Selector.tokens selector).length := by
  obtain ⟨words, hne, -, htokens⟩ := Selector.tokens_of_keyword h
  rw [htokens]
  simpa [Selector.keywordsOf, Selector.withColons, List.length_pos_iff] using hne

/-- Each renamed run takes one edit per keyword. -/
theorem length_keywordEdits (src : Source) (h : Source.SameKeywords old new) :
    (src.keywordEdits old new).length =
      (src.runsOfSelector old).length * (Selector.tokens old).length := by
  have hrun : ∀ run ∈ src.runsOfSelector old,
      ((run.tokens.zip (Selector.tokens new)).map fun p => (⟨p.1, p.2⟩ : Edit)).length =
        (Selector.tokens old).length := by
    intro run hrun
    rw [List.length_map, List.length_zip, Source.length_tokens hrun, ← h.length_eq, Nat.min_self]
  rw [Source.keywordEdits, List.length_flatMap]
  change ((src.runsOfSelector old).map _).sum = _
  rw [List.map_congr_left hrun, List.map_const', List.sum_replicate_nat]

theorem kind_of_mem_sends {src : Source} {send : Send} (h : send ∈ src.sends)
    (hkind : Selector.kind? send.selector ≠ some .keyword) : send.kind ≠ .keyword := by
  rcases Source.mem_sends.1 h with hmem | hmem
  · rw [Source.keywordSends_eq] at hmem
    obtain ⟨run, hrun, rfl⟩ := List.mem_map.1 hmem
    exact absurd (Source.keywordRun_spelling hrun).1 hkind
  · rcases Source.simpleSend_selector hmem with ⟨hunary, -⟩ | ⟨hbinary, -⟩
    · simp [hunary]
    · simp [hbinary]

/-- As many sends are replaced as are found. -/
theorem replacements_renameSends (text : String)
    (h : Selector.kind? old = some .keyword → Source.SameKeywords old new) :
    (renameSends text old new).replacements =
      ((Source.ofText text).sendsOf (some old)).length := by
  by_cases hkind : Selector.kind? old = some .keyword
  · have hpos := tokens_ne_nil hkind
    simp only [renameSends, hkind, beq_self_eq_true, if_true]
    rw [length_keywordEdits _ (h hkind), Nat.mul_div_cancel _ hpos,
      (Source.sendsOf_keyword hkind).length_eq, List.length_map]
  · have hif : (Selector.kind? old == some .keyword) = false := by simpa using hkind
    simp only [renameSends, hif, Bool.false_eq_true, if_false, Source.simpleEdits, List.length_map,
      Source.sendsOf]
    congr 1
    refine List.filter_congr fun send hsend => ?_
    by_cases hselector : send.selector = old
    · have hne := kind_of_mem_sends hsend (by rw [hselector]; exact hkind)
      simp [hselector, hne]
    · simp [hselector]

/-- Something is replaced in a text that sends the selector, and only there. -/
theorem replacements_eq_zero_iff (text : String)
    (h : Selector.kind? old = some .keyword → Source.SameKeywords old new) :
    (renameSends text old new).replacements = 0 ↔
      (Source.ofText text).sendsSelector old = false := by
  rw [replacements_renameSends text h, List.length_eq_zero_iff, Source.sendsOf,
    List.filter_eq_nil_iff, Source.sendsSelector, List.any_eq_false]

/-! ## Headers -/

/-- All edits lie in the body. -/
theorem ofText?_renameSends (text old new : String) :
    Header.ofText? (renameSends text old new).source = Header.ofText? text := by
  by_cases hline : '\n' ∈ text.toList
  · simp only [renameSends]
    split
    · refine Header.ofText?_applyAll hline fun e he => ?_
      obtain ⟨run, hrun, hmem⟩ := Source.mem_keywordEdits.1 he
      exact (Source.token_of_mem_keywordRuns (Source.mem_runsOfSelector.1 hrun).1
        (List.of_mem_zip hmem).1).1
    · refine Header.ofText?_applyAll hline fun e he => ?_
      obtain ⟨send, hsend, -, rfl⟩ := Source.mem_simpleEdits.1 he
      exact Source.bodyStart_le_simpleSend hsend
  · rw [renameSends_of_oneLine old new hline]

namespace Header

theorem join_tokens (selector : String) : String.join (Selector.tokens selector) = selector := by
  by_cases h : Selector.kind? selector = some .keyword
  · exact Selector.join_tokens h
  · have htokens : Selector.tokens selector = [selector] := by
      unfold Selector.tokens
      split
      · next hkeyword => exact absurd hkeyword h
      · rfl
    simp [htokens]

/-- A signature with another selector of the same kind and arity. -/
theorem WellFormed.ofParts {h : Header} (hwf : h.WellFormed)
    (hkind : Selector.kind? new = some h.kind)
    (harity : Selector.arity h.selector = Selector.arity new) :
    (ofParts h.kind (Selector.tokens new) h.arguments).WellFormed := by
  refine ⟨?_, ?_, ?_, hwf.arguments⟩
  · simp only [Header.ofParts, join_tokens, hkind]
  · simp only [Header.ofParts, join_tokens]
  · simp only [Header.ofParts, join_tokens]
    rw [hwf.arity, harity]

theorem WellFormed.render_ne_nil {h : Header} (hwf : h.WellFormed) : h.render.toList ≠ [] := by
  intro hnil
  have hempty : "".toList = h.render.toList ++ [] := by rw [hnil]; rfl
  have hparse := parse?_render hwf (ends_nil _) hempty
  simp [parse?, skipBlanks] at hparse

end Header

/-- The new header of a renamed method. -/
theorem ofText?_renameMethod? {r : Revised} {h : Header} (hp : Header.ofText? text = some h)
    (hr : renameMethod? text old new = some r) (hkind : Selector.kind? new = some h.kind)
    (harity : Selector.arity h.selector = Selector.arity new) :
    ∃ h', Header.ofText? r.source = some h' ∧ h'.selector = new := by
  obtain ⟨sig, after, hreading⟩ := Header.ofText?_eq_some hp
  have hwf := hreading.wellFormed.ofParts hkind harity
  simp only [renameMethod?, hp, Option.map_some, Option.some.injEq] at hr
  subst hr
  have hp' : Header.ofText? (renameSends text old new).source = some h := by
    rw [ofText?_renameSends, hp]
  exact ⟨_, Header.ofText?_replaceHeader hp' hwf fun _ => id, Header.join_tokens new⟩

/-- The edit that exchanges the signature. -/
def headerEdit (h h' : Header) : Edit := ⟨⟨0, h.signatureEnd⟩, h'.render⟩

/-- Renaming the header and words of the body is a respelling. -/
theorem respelling_replaceHeader {body : String} {h h' : Header} {es : List Edit} {keyword : Prop}
    (hp : Header.ofText? text = some h) (hwf : h'.WellFormed) (hline : '\n' ∈ text.toList)
    (hspliced : Spliced 0 es text.toList body.toList)
    (hresp : ∀ e ∈ es, e.Respells (.ofText text) keyword) :
    Respelling (.ofText text) (.ofText (replaceHeader body h h')) (headerEdit h h' :: es)
      keyword := by
  obtain ⟨sig, after, hreading⟩ := Header.ofText?_eq_some hp
  have htext := hreading.text_eq
  have hsig := Header.newline_not_mem hreading.chars
  obtain ⟨tail, rest, hafter, htail⟩ : ∃ tail rest, after = tail ++ '\n' :: rest ∧ '\n' ∉ tail := by
    rw [htext, List.mem_append] at hline
    exact List.eq_append_cons_of_mem (hline.resolve_left hsig)
  subst hafter
  have hnot : '\n' ∉ sig ++ tail := by
    rw [List.mem_append, not_or]
    exact ⟨hsig, htail⟩
  have hbodyStart : (Source.ofText text).bodyStart = String.utf8Len (sig ++ tail) + 1 :=
    Source.bodyStart_of_newline (by rw [List.append_assoc]; exact htext) hnot
  -- The edits come after the signature, so the renamed text starts with it.
  obtain ⟨u, hbody, -⟩ := Spliced.drop_prefix (htext ▸ hspliced) fun e he => by
    have hle := (hresp e he).body
    rw [hbodyStart, String.utf8Len_append] at hle
    omega
  have hplain : ∀ cs : List Char, (∀ c ∈ cs, Header.isSignatureChar c = true) →
      Mode.code.after cs = .code := fun cs hcs =>
    after_of_plain fun c hc => (Header.isPlain_of_isSignatureChar (hcs c hc)).1
  have hrender : ∀ c ∈ h'.render.toList, Header.isSignatureChar c = true := fun c hc =>
    (Header.mem_render hwf hc).1
  have hspliced' : Spliced 0 es text.toList (sig ++ u) := hbody ▸ hspliced
  refine .of_header hspliced' hresp htext hnot ?_ ⟨?_, ?_⟩ ⟨?_, ?_⟩
    (Header.newline_not_mem hrender) (Header.toList_replaceHeader hbody hreading.signatureEnd h')
  · rw [headerEdit, hreading.signatureEnd]
  · refine ⟨[], sig, _, htext, rfl, ?_, rfl, hplain sig hreading.chars⟩
    rw [headerEdit, hreading.signatureEnd]
    exact (Nat.zero_add _).symm
  · exact hplain _ hrender
  · rw [headerEdit, hreading.signatureEnd, Header.utf8Len_signature hreading.chars]
    exact List.length_pos_of_ne_nil hreading.ne_nil
  · rw [utf8ByteSize_eq, headerEdit, Header.utf8Len_signature hrender]
    exact List.length_pos_of_ne_nil hwf.render_ne_nil

/-- No send of the old selector is found in a renamed method. -/
theorem sendsSelector_renameMethod? {r : Revised} {h : Header} (hp : Header.ofText? text = some h)
    (hr : renameMethod? text old new = some r) (hkind : Selector.kind? new = some h.kind)
    (harity : Selector.arity h.selector = Selector.arity new) (hshape : SameShape old new)
    (hne : old ≠ new) : (Source.ofText r.source).sendsSelector old = false := by
  obtain ⟨sig, after, hreading⟩ := Header.ofText?_eq_some hp
  have hwf := hreading.wellFormed.ofParts hkind harity
  simp only [renameMethod?, hp, Option.map_some, Option.some.injEq] at hr
  subst hr
  by_cases hline : '\n' ∈ text.toList
  · cases hshape with
    | unary hold hnew =>
      obtain ⟨ws, hspliced, hresp, hws⟩ := respells_unary text hold hnew
      have R := respelling_replaceHeader hp hwf hline hspliced hresp
      refine R.sendsSelector_unary hold hnew (fun w hw => ?_) hne
      rw [List.mem_cons, hws w hw]
      refine or_iff_right fun heq => ?_
      subst heq
      exact absurd hw (Nat.not_le.2 R.bodyStart_pos)
    | keyword h' =>
      obtain ⟨ws, hspliced, hresp, hws, -⟩ := respells_keyword text h'
      have R := respelling_replaceHeader hp hwf hline hspliced hresp
      refine R.sendsSelector_keyword h' ⟨fun e he => List.mem_cons_of_mem _ (hws.mem e he),
        fun w hw hbody => ?_⟩ hne
      rcases List.mem_cons.1 hw with rfl | hw
      · exact absurd hbody (Nat.not_le.2 R.bodyStart_pos)
      · exact hws.exists_edit w hw hbody
  · -- A method of one line stays one.
    refine sendsSelector_of_oneLine ?_ old
    have htext := hreading.text_eq
    have hsource := renameSends_of_oneLine old new hline
    rw [← hsource] at htext
    rw [Header.toList_replaceHeader htext hreading.signatureEnd, List.mem_append, not_or]
    refine ⟨Header.newline_not_mem fun c hc => (Header.mem_render hwf hc).1, fun hmem => hline ?_⟩
    rw [hreading.text_eq]
    exact List.mem_append_right _ hmem

end MethodBrowser
