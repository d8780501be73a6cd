import MethodBrowser.Proofs.Plan.BodyWrites
import MethodBrowser.Proofs.Send.SelfSend
import MethodBrowser.Proofs.Source.KeptPreamble
import MethodBrowser.Proofs.Source.MovedClauses

/-!
# Extracting a method keeps what statements say

Statements that are extracted are cut out of one text and pasted into another, where they are read
again. This module shows that they are read as before (`ExtractMethod.extraction_faithful`): the new
method has the selected statements, and the old one has all the others and a send of the new method.

**Why.** The body of a method is put together from clauses (`Source.Body`). Extraction takes a row of
clauses out and puts one in (`Source.Body.replace`), or lists statements under a header of their own
(`ExtractMethod.body_extracted`). Either way the result is put together from clauses again, and what a
statement says is told by its text alone.

**What is assumed** (`Source.Regular`). The header leaves no literal or comment open, and no statement
follows a period with a digit: `1.5` is read as one number, and `x.5` is cut into two statements which
no white space keeps apart.
-/

namespace MethodBrowser

namespace Source

variable {src : Source}

/-- The reader is in code where the body starts, and no digit follows the period of a statement. -/
structure Regular (src : Source) : Prop where
  header : ∃ l r, src.text.toList = l ++ r ∧ String.utf8Len l = src.bodyStart ∧
    Mode.code.after l = .code
  digits : ∀ k, src.statementRegion.start ≤ k →
    src.endsStatement .empty src.statementRegion.start k = true → src.byteIs Byte.isDigit (k + 1) = false

/-! ## Where statements may begin -/

/-- Neither pragmas nor temporaries open the body. -/
structure NoPreamble (src : Source) : Prop where
  pragmas : (src.preamble src.bodyStart).pragmas = []
  temporaries : (src.preamble src.bodyStart).temporaries = none

theorem NoPreamble.start_eq (h : src.NoPreamble) : src.statementRegion.start = src.bodyStart := by
  obtain ⟨hpragmas, htemps⟩ := h
  simp only [statementRegion, preamble] at hpragmas htemps ⊢
  cases hblock : src.temporariesAt? (src.pragmasFrom src.bodyStart).2 with
  | none =>
    simp only [hblock] at hpragmas ⊢
    simp [hpragmas]
  | some block => simp [hblock] at htemps

theorem Regular.cutAt_start (h : src.Regular) : src.CutAt src.statementRegion.start := by
  rcases src.region_start_cases with heq | ⟨hlt, hclose⟩
  · obtain ⟨l, r, htext, hlen, hmode⟩ := h.header
    exact ⟨l, r, ⟨htext, fun _ => hmode⟩, hlen.trans heq.symm⟩
  · have hplain : ∀ x : Char, x = '>' ∨ x = '|' → IsPlain x := by
      rintro x (rfl | rfl) <;> exact ⟨by unfold IsAscii; decide, by decide, by decide, by decide⟩
    obtain ⟨x, hx, hcode⟩ : ∃ x : Char, (x = '>' ∨ x = '|') ∧
        src.codeAt (src.statementRegion.start - 1) x = true :=
      hclose.elim (fun hcode => ⟨'>', .inl rfl, hcode⟩) fun hcode => ⟨'|', .inr rfl, hcode⟩
    obtain ⟨l, r, -, -, hcut, hlen⟩ := cutAt_of_codeAt (hplain x hx) hcode
    exact ⟨_, r, hcut, hlen.trans (by omega)⟩

theorem isBoundary_newline {line rest : List Char} (h : src.text.toList = line ++ '\n' :: rest) :
    src.byteIs Byte.isBoundary (String.utf8Len line) = true := by
  rw [byteIs, holds, cell_of_cut h (by unfold IsAscii; decide), Option.any_some]
  rfl

/-- Statements begin after a line feed, a `>` or a bar. -/
theorem isBoundary_start (hline : '\n' ∈ src.text.toList) :
    src.byteIs Byte.isBoundary (src.statementRegion.start - 1) = true := by
  rcases src.region_start_cases with heq | ⟨-, hcode | hcode⟩
  · obtain ⟨line, rest, htext, hnot⟩ := (oneLine_or_newline _).resolve_left (not_not_intro hline)
    rw [heq, bodyStart_of_newline htext hnot, Nat.add_sub_cancel]
    exact isBoundary_newline htext
  · exact isBoundary_of_codeAt (by decide) hcode
  · exact isBoundary_of_codeAt (by decide) hcode

/-- The body of a regular method is put together from clauses. -/
theorem Regular.exists_body (h : src.Regular) (hne : src.statements ≠ []) :
    ∃ l cs, src.Body l cs := by
  have hline : '\n' ∈ src.text.toList := by
    by_contra hone
    exact hne (statements_of_oneLine hone)
  have hbound := isBoundary_start hline
  obtain ⟨l, r, hcut, hlen⟩ := h.cutAt_start
  obtain ⟨cs, hprose, rfl, -⟩ := src.layout_statements.exists_clauses hcut hlen (.inr hbound) h.digits
  exact ⟨l, cs, hprose, hcut, hlen.symm, .inr (hlen ▸ hbound)⟩

end Source

/-! ## A statement in the place of others -/

/-- No `<` stands right before a statement. -/
theorem Excerpt.not_codeAt_before {w s : Source} (E : Excerpt w s) {k : Nat} (hfloor : E.floor ≤ k)
    (hk : k + 1 = E.offset) : s.codeAt k '<' = false := by
  rcases Nat.eq_or_lt_of_le E.left_le with heq | hlt
  · have hterm := (E.opening (by omega)).1
    rw [Source.isTerminator, Bool.and_eq_true, show E.left - 1 = k by omega] at hterm
    exact Source.codeAt_ne (by decide) hterm.1
  · exact E.before.codeAt (by decide) (by omega) (by omega)

/-- One edit. -/
theorem Edit.toList_applyAll_single {text replacement : String} {l w r : List Char} {i j : Nat}
    (htext : text.toList = l ++ w ++ r) (hi : i = String.utf8Len l)
    (hj : j = String.utf8Len (l ++ w)) :
    (applyAll text [⟨⟨i, j⟩, replacement⟩]).toList = l ++ replacement.toList ++ r := by
  have hspliced : Spliced (String.utf8Len []) [⟨⟨i, j⟩, replacement⟩] (l ++ w ++ r)
      (l ++ replacement.toList ++ r) :=
    .cons (by simpa using hi) (by simp only [hj, hi, String.utf8Len_append]) .nil
  rw [applyAll, List.mergeSort_singleton]
  exact splice_of_spliced (l := []) htext hspliced

theorem mode_lead {cs : List Clause} (h : ∀ c ∈ cs, c.Closed) : Mode.code.after (lead cs) = .code := by
  induction cs with
  | nil => rfl
  | cons c cs ih =>
    rw [List.forall_mem_cons] at h
    rw [lead, List.flatMap_cons, Mode.after_append, Mode.after_append, h.1.mode]
    exact ih h.2

namespace Source.Body

variable {s t : Source} {l : List Char} {cs : List Clause}

/-- The text can be cut around a statement. -/
theorem cut_sentence {front back : List Clause} {before text after : List Char}
    (h : s.Body l (front ++ .sentence before text after :: back)) :
    ∃ r, (∀ c : Clause, joined (c :: back) = c.chars ++ r) ∧
      s.Cut (l ++ lead front ++ before) (text ++ (after ++ r)) ∧
      s.Cut (l ++ lead front ++ before ++ text) (after ++ r) := by
  obtain ⟨r, hr⟩ := exists_joined_cons back
  obtain ⟨-, hpair, hcross⟩ := List.pairwise_append.1 h.prose.closed
  have hfinal := h.prose.final (.sentence before text after) (by simp)
  have hcut := h.cut
  rw [joined_append, hr, Clause.chars, List.append_assoc, List.append_assoc] at hcut
  have hcut₁ := hcut.after fun _ => mode_lead fun c hc =>
    (hcross c hc _ (List.mem_cons_self ..)).1
  have hcut₂ := hcut₁.after fun _ => hfinal.1.closed
  refine ⟨r, hr, hcut₂, hcut₂.after fun hne => ?_⟩
  cases back with
  | nil =>
    have hnil : r = [] := by
      have hself := hr (.blank [])
      simpa [joined, Clause.chars] using hself.symm
    exact hfinal.2.2.2 (by simpa [hnil] using hne)
  | cons c back =>
    obtain ⟨-, -, hclosed, -⟩ := (List.rel_of_pairwise_cons hpair (List.mem_cons_self ..)).1
    exact hclosed.mode

/-- Around a row of statements the text can be cut, and one statement can be put in its place. -/
theorem exists_row (h : s.Body l cs) {i j : Nat} {sp sp' : Span}
    (hi : (spansFrom (String.utf8Len l) cs)[i]? = some sp)
    (hj : (spansFrom (String.utf8Len l) cs)[j]? = some sp') (hlt : sp.start < sp'.stop) :
    ∃ (put : List Char → List Clause) (a m z : List Char),
      m ≠ [] ∧ s.Cut (l ++ a) (m ++ z) ∧ s.Cut (l ++ a ++ m) z ∧
      sp.start = String.utf8Len (l ++ a) ∧ sp'.stop = String.utf8Len (l ++ a ++ m) ∧
      ∀ x, joined (put x) = a ++ x ++ z ∧
        texts (put x) = (texts cs).take i ++ x :: (texts cs).drop (j + 1) ∧
        (IsSentence x → IsClosed x → (ofChars x).byteIs Byte.isDigit 0 = false → Prose (put x)) := by
  obtain ⟨front, before, text₁, after₁, back', rfl, hfront, -, hsp⟩ := exists_clause hi
  obtain ⟨front', before₂, text₂, after, back, hcs, -, hback, hsp'⟩ := exists_clause hj
  obtain ⟨r₁, -, hcut₁, -⟩ := h.cut_sentence
  obtain ⟨r, hr, -, hcut₂⟩ := cut_sentence (hcs ▸ h)
  have hstart : sp.start = String.utf8Len (l ++ lead front ++ before) := by
    simp only [hsp, String.utf8Len_append, Nat.add_assoc]
  have hstop : sp'.stop = String.utf8Len (l ++ lead front' ++ before₂ ++ text₂) := by
    simp only [hsp', String.utf8Len_append, Nat.add_assoc]
  obtain ⟨m, hm, hrest⟩ := append_eq_append_of_le (hcut₁.text.symm.trans hcut₂.text) (by omega)
  rw [hrest, List.append_assoc l] at hcut₁
  rw [hm, List.append_assoc l] at hcut₂ hstop
  rw [List.append_assoc l] at hstart
  refine ⟨fun x => front ++ .sentence before x after :: back, lead front ++ before, m, after ++ r,
    ?_, hcut₁, hcut₂, hstart, hstop, fun x => ⟨?_, ?_, fun hx hclosed hdigit => ?_⟩⟩
  · rintro rfl
    rw [List.append_nil] at hstop
    omega
  · rw [joined_append, hr, Clause.chars]
    simp only [List.append_assoc]
  · rw [← hfront, ← hback]
    exact List.filterMap_append
  · exact h.prose.replace (hcs ▸ h.prose) hx hclosed hdigit

/-- The byte before the body is the same in all texts that start alike. -/
theorem bound_of_text (h : s.Body l cs) {r : List Char} (ht : t.text.toList = l ++ r) :
    String.utf8Len l = 0 ∨ t.byteIs Byte.isBoundary (String.utf8Len l - 1) = true := by
  refine (Nat.eq_zero_or_pos (String.utf8Len l)).imp id fun hpos => ?_
  rw [← h.bound.resolve_left (by omega)]
  refine holds_congr ?_
  rw [cell_of_lt ht (by omega), cell_of_lt h.cut.text (by omega)]

/-- A send to `self` takes the place of a row of statements. -/
theorem replace (h : s.Body l cs) {i j : Nat} {sp sp' : Span}
    (hi : (s.statements.map (·.span))[i]? = some sp) (hj : (s.statements.map (·.span))[j]? = some sp')
    (hlt : sp.start < sp'.stop) {name : List Char} (hname : isIdentifier name = true)
    (ht : t.text = Edit.applyAll s.text [⟨⟨sp.start, sp'.stop⟩, String.ofList (selfSend name)⟩]) :
    ∃ cs', t.Body l cs' ∧
      texts cs' = (texts cs).take i ++ selfSend name :: (texts cs).drop (j + 1) := by
  obtain ⟨w, hpart⟩ : ∃ w, s.IsPart (String.utf8Len l) sp w := by
    obtain ⟨hi', rfl⟩ := List.getElem?_eq_some_iff.1 hi
    have hparts := List.forall₂_iff_get.1 h.parts
    exact ⟨_, hparts.2 i hi' (hparts.1 ▸ hi')⟩
  rw [h.spans_eq] at hi hj
  obtain ⟨put, a, m, z, hne, hs, hs', hstart, hstop, hput⟩ := h.exists_row hi hj hlt
  obtain ⟨hjoined, htexts, hprose⟩ := hput (selfSend name)
  have hwords := isWords_selfSend hname
  have htext : t.text.toList = l ++ a ++ selfSend name ++ z := by
    rw [ht, Edit.toList_applyAll_single (hs.text.trans (List.append_assoc ..).symm) hstart hstop,
      String.toList_ofList]
  have ht₁ : t.Cut (l ++ a) (selfSend name ++ z) :=
    ⟨htext.trans (List.append_assoc ..), fun _ => hs.mode (by simp [hne])⟩
  have hregion : t.statementRegion.start = s.statementRegion.start := by
    obtain ⟨E, hfloor, rfl, -⟩ := hpart
    refine region_start_eq hs hs' ht₁ (ht₁.after fun _ => hwords.isClosed.mode) hne
      (isWord_self hname).letter (fun hy k => ?_) ?_ fun k hk hk' => ?_
    · rcases hy with rfl | rfl <;> exact hwords.not_codeAt (by decide) (by decide)
    · rw [h.start, String.utf8Len_append]
      omega
    · exact E.not_codeAt_before (by rwa [hfloor, ← h.start]) (hk'.trans hstart.symm)
  have hcut : t.text.toList = l ++ joined (put (selfSend name)) := by
    rw [htext, hjoined]
    simp only [List.append_assoc]
  have hrest : joined cs ≠ [] := fun hnil => by
    have hsame := h.cut.text.symm.trans hs.text
    rw [hnil, List.append_assoc, List.append_cancel_left_eq] at hsame
    simp [hne] at hsame
  exact ⟨put (selfSend name), ⟨hprose (isSentence_selfSend hname) hwords.isClosed
    (not_isDigit_selfSend hname), ⟨hcut, fun _ => h.cut.mode hrest⟩, hregion.trans h.start,
    h.bound_of_text hcut⟩, htexts⟩

end Source.Body

namespace ExtractMethod

/-! ## Selections -/

/-- The statements from the place `first` to the place `last`, counted from one. -/
def selected (src : Source) (first last : Nat) : List Statement :=
  (src.statements.drop (first - 1)).take (last - first + 1)

/-- The span from the first of some statements to the last one. -/
def spanOf (statements : List Statement) : Span :=
  ⟨(statements.head?.map (·.span.start)).getD 0, (statements.getLast?.map (·.span.stop)).getD 0⟩

/-- The method after the selected statements have been extracted from it. -/
def revised (text new : String) (first last : Nat) : String :=
  Edit.applyAll text [⟨spanOf (selected (.ofText text) first last), "self " ++ new⟩]

/-- The method of the selected statements. -/
def newMethod (text new : String) (first last : Nat) : String :=
  extracted new ((selected (.ofText text) first last).map fun s => (Source.ofText text).slice s.span)

variable {src : Source} {first last : Nat}

theorem spanOf_selected (hfirst : 1 ≤ first) (hle : first ≤ last)
    (hlast : last ≤ src.statements.length) :
    ∃ sp sp', (src.statements.map (·.span))[first - 1]? = some sp ∧
      (src.statements.map (·.span))[last - 1]? = some sp' ∧ sp.start < sp'.stop ∧
      spanOf (selected src first last) = ⟨sp.start, sp'.stop⟩ := by
  have h₁ : first - 1 < src.statements.length := by omega
  have h₂ : last - 1 < src.statements.length := by omega
  refine ⟨src.statements[first - 1].span, src.statements[last - 1].span, by simp [h₁], by simp [h₂],
    ?_, ?_⟩
  · have hlt : ∀ i (hi : i < src.statements.length),
        src.statements[i].span.start < src.statements[i].span.stop := fun i hi =>
      (src.layout_statements.sentence _ (List.mem_map_of_mem (List.getElem_mem hi))).2.2.1.lt
    rcases Nat.eq_or_lt_of_le hle with rfl | hlt'
    · exact hlt _ _
    · have hapart := List.pairwise_iff_getElem.1 src.pairwise_statements (first - 1) (last - 1) h₁ h₂
        (by omega)
      have := hlt (first - 1) h₁
      have := hlt (last - 1) h₂
      omega
  · have hhead : (selected src first last).head? = some src.statements[first - 1] := by
      rw [selected, List.head?_take, if_neg (by omega), List.head?_drop, List.getElem?_eq_getElem h₁]
    have hlast' : (selected src first last).getLast? = some src.statements[last - 1] := by
      rw [selected, List.getLast?_eq_getElem?, List.length_take, List.length_drop,
        Nat.min_eq_left (by omega), List.getElem?_take_of_lt (by omega), List.getElem?_drop,
        ← List.getElem?_eq_getElem h₂]
      congr 1
      omega
    rw [spanOf, hhead, hlast']
    rfl

/-! ## The new method -/

theorem isGap_indent : IsGap indent.toList ∧ IsGap ('\n' :: indent.toList) :=
  ⟨⟨by unfold IsTail; decide, rfl⟩, ⟨by unfold IsTail; decide, rfl⟩⟩

/-- Statements that are listed under a header are the body of a method, if no preamble is found in
them. -/
theorem body_extracted {new : String} (hnew : Selector.kind? new = some .unary) {w : List Char}
    {ws : List (List Char)} (hsentence : ∀ x ∈ w :: ws, IsSentence x)
    (hclosed : (w :: ws).Pairwise fun x _ => IsClosed x)
    (hpreamble : (Source.ofText (extracted new ((w :: ws).map String.ofList))).NoPreamble) :
    (Source.ofText (extracted new ((w :: ws).map String.ofList))).Body (new.toList ++ ['\n'])
      (listed indent.toList ('\n' :: indent.toList) w ws) := by
  have hplain : ∀ c ∈ new.toList, isIdentRest c = true :=
    isIdentRest_of_isIdentifier (Selector.kind?_eq_unary_iff.1 hnew)
  have hnot : '\n' ∉ new.toList := fun hmem => absurd (hplain _ hmem) (by decide)
  have htext : (Source.ofText (extracted new ((w :: ws).map String.ofList))).text.toList =
      new.toList ++ '\n' :: joined (listed indent.toList ('\n' :: indent.toList) w ws) := by
    change (extracted new ((w :: ws).map String.ofList)).toList = _
    have hsame : ((w :: ws).map String.ofList).map String.toList = w :: ws := by simp
    rw [joined_listed, extracted, String.toList_append, String.toList_append, String.toList_append,
      String.toList_intercalate, hsame, List.append_assoc, List.append_assoc]
    rfl
  refine ⟨prose_listed isGap_indent.1 isGap_indent.2 (by simp) (by decide +kernel) hsentence hclosed,
    ⟨htext.trans (by simp), fun _ => ?_⟩, ?_, .inr ?_⟩
  · rw [Mode.after_append, after_of_plain fun c hc => isPlain_of_isIdentRest (hplain c hc)]
    rfl
  · rw [hpreamble.start_eq, Source.bodyStart_of_newline htext hnot, String.utf8Len_append]
    rfl
  · rw [String.utf8Len_append]
    exact Source.isBoundary_newline htext

/-! ## Plans -/

/-- What a plan writes. -/
theorem plan_sources {session : Session} {settings : Settings} {r : Request} {p : Plan}
    (h : plan session settings r = .ok p) :
    ∃ entry first last, session.image.method? ⟨r.className, r.side, r.selector⟩ = some entry ∧
      selectionRange r.statementIndices (Source.ofText entry.source).statements.length =
        .ok (first, last) ∧
      p.revisedSource = revised entry.source r.newSelector first last ∧
      p.newMethodSource = newMethod entry.source r.newSelector first last := by
  simp only [plan, bind_eq_ok, require_eq_ok, mapError_eq_ok, Session.sourceOf_eq_ok,
    Prod.exists] at h
  obtain ⟨-, -, -, -, -, ⟨entry, hentry, rfl⟩, first, last, hrange, h⟩ := h
  split at h
  · simp [throw, throwThe, MonadExceptOf.throw, bind, Except.bind] at h
  · obtain ⟨h, -⟩ := Session.unlessTaken_eq_ok h
    simp only [bind_eq_ok, pure, Except.pure, Except.ok.injEq] at h
    obtain ⟨category, -, rfl⟩ := h
    exact ⟨entry, first, last, hentry, hrange, rfl, rfl⟩

/-- A selection without a return can be extracted under a free selector. -/
theorem exists_plan {session : Session} {settings : Settings} {r : Request} {entry : MethodEntry}
    (hentry : session.image.method? ⟨r.className, r.side, r.selector⟩ = some entry)
    (hselection : selectionRange r.statementIndices (Source.ofText entry.source).statements.length =
      .ok (first, last))
    (hreturns : ∀ st ∈ selected (.ofText entry.source) first last, st.kind ≠ .returns)
    (hnew : Selector.kind? r.newSelector = some .unary) (hne : r.newSelector ≠ r.selector)
    (hfree : r.overwrite = false →
      session.image.method? ⟨r.className, r.side, r.newSelector⟩ = none) :
    ∃ p, plan session settings r = .ok p := by
  have hcategory : ∀ {f : String → Except Failure Plan}, (∀ c, ∃ p, f c = .ok p) → ∃ p,
      (session.categoryOf settings ⟨r.className, r.side, r.selector⟩ >>= f) = .ok p := fun hf =>
    exists_bind_eq_ok (bind_eq_ok.2 ⟨entry.category, Session.ask_eq_ok.2
      (bind_eq_ok.2 ⟨entry, Image.findMethod_eq_ok.2 hentry, rfl⟩), rfl⟩) (hf _)
  have hfind : ((List.range' first (last - first + 1)).zip
      (selected (.ofText entry.source) first last)).find? (fun p => p.2.kind == .returns) = none := by
    refine List.find?_eq_none.2 fun p hp hkind => ?_
    exact hreturns p.2 (List.of_mem_zip hp).2 (beq_iff_eq.1 hkind)
  rw [selected] at hfind
  unfold plan
  refine exists_bind_eq_ok (a := ()) (require_eq_ok.2 (by simp [hnew])) ?_
  refine exists_bind_eq_ok (a := ()) (require_eq_ok.2 (by simpa using hne)) ?_
  refine exists_bind_eq_ok (Session.sourceOf_eq_ok.2 ⟨entry, hentry, rfl⟩) ?_
  refine exists_bind_eq_ok (mapError_eq_ok.2 hselection) ?_
  simp only [hfind]
  cases hover : r.overwrite with
  | true => exact hcategory fun c => ⟨_, rfl⟩
  | false =>
    refine exists_bind_eq_ok (Session.implements_of_method? hentry (hfree hover)) ?_
    exact exists_bind_eq_ok rfl (hcategory fun c => ⟨_, rfl⟩)

/-! ## What both methods say -/

section Gists

variable {text new : String} {l : List Char} {cs : List Clause} (hbody : (Source.ofText text).Body l cs)
  (hfirst : 1 ≤ first) (hle : first ≤ last) (hlast : last ≤ (Source.ofText text).statements.length)
  (hnew : Selector.kind? new = some .unary)
include hbody hfirst hle hlast hnew

theorem gists_revised :
    gists (revised text new first last) = (gists text).take (first - 1) ++
      ⟨"self " ++ new, .expression, [⟨new, .unary, .self, 1⟩]⟩ :: (gists text).drop last := by
  have hident := Selector.kind?_eq_unary_iff.1 hnew
  obtain ⟨sp, sp', hi, hj, hlt, hspan⟩ := spanOf_selected hfirst hle hlast
  have hself : "self " ++ new = String.ofList (selfSend new.toList) := by
    rw [selfSend, String.ofList_append, String.ofList_toList]
  obtain ⟨cs', hbody', htexts⟩ := hbody.replace (t := .ofText (revised text new first last)) hi hj hlt
    hident (by rw [← hself, ← hspan]; rfl)
  rw [gists_of_body hbody', htexts, gists_of_body hbody, List.map_append, List.map_cons, List.map_take,
    List.map_drop, gist_selfSend hident, ← hself, String.ofList_toList, Nat.sub_add_cancel (by omega)]

theorem gists_newMethod (hpreamble : (Source.ofText (newMethod text new first last)).NoPreamble) :
    gists (newMethod text new first last) =
      ((gists text).drop (first - 1)).take (last - first + 1) := by
  have hslices : newMethod text new first last = extracted new
      ((((texts cs).drop (first - 1)).take (last - first + 1)).map String.ofList) := by
    rw [newMethod, selected, List.map_take, List.map_drop, hbody.slices_eq, ← List.map_drop,
      ← List.map_take]
  have hsublist : (((texts cs).drop (first - 1)).take (last - first + 1)).Sublist (texts cs) :=
    (List.take_sublist ..).trans (List.drop_sublist ..)
  have hcount : (texts cs).length = (Source.ofText text).statements.length := by
    have hlength := congrArg List.length hbody.slices_eq
    simpa using hlength.symm
  rw [hslices] at hpreamble ⊢
  rw [gists_of_body hbody, ← List.map_drop, ← List.map_take]
  cases hws : ((texts cs).drop (first - 1)).take (last - first + 1) with
  | nil =>
    have hlength := congrArg List.length hws
    simp only [List.length_take, List.length_drop, List.length_nil] at hlength
    omega
  | cons w ws =>
    rw [hws] at hsublist hpreamble
    rw [gists_of_body (body_extracted hnew (fun x hx => hbody.prose.isSentence x (hsublist.subset hx))
      (hbody.prose.isClosed.sublist hsublist) hpreamble), texts_listed]

end Gists

/-- Extracting statements from a regular method puts a send of the new method in their place and leaves
all others as they are. The new method has the selected statements, unless they are read as a preamble.
These are the two methods that a plan writes, and there is a plan if nothing is returned. -/
theorem extraction_faithful {text new : String} {indices : List Nat} {first last : Nat}
    (hregular : (Source.ofText text).Regular)
    (hselection : selectionRange indices (Source.ofText text).statements.length = .ok (first, last))
    (hnew : Selector.kind? new = some .unary) :
    gists (revised text new first last) = (gists text).take (first - 1) ++
        ⟨"self " ++ new, .expression, [⟨new, .unary, .self, 1⟩]⟩ :: (gists text).drop last ∧
      ((Source.ofText (newMethod text new first last)).NoPreamble →
        gists (newMethod text new first last) =
          ((gists text).drop (first - 1)).take (last - first + 1)) ∧
      ∀ (session : Session) (settings : Settings) (r : Request) (entry : MethodEntry),
        session.image.method? ⟨r.className, r.side, r.selector⟩ = some entry → entry.source = text →
        r.statementIndices = indices → r.newSelector = new →
        (∀ p, plan session settings r = .ok p → p.revisedSource = revised text new first last ∧
          p.newMethodSource = newMethod text new first last) ∧
        ((∀ st ∈ selected (.ofText text) first last, st.kind ≠ .returns) → new ≠ r.selector →
          (r.overwrite = false → session.image.method? ⟨r.className, r.side, new⟩ = none) →
          ∃ p, plan session settings r = .ok p) := by
  obtain ⟨hfirst, hle, hlast⟩ := selectionRange_bounds hselection
  obtain ⟨l, cs, hbody⟩ := hregular.exists_body (by
    rintro hnil
    rw [hnil, List.length_nil] at hlast
    omega)
  refine ⟨gists_revised hbody hfirst hle hlast hnew, gists_newMethod hbody hfirst hle hlast hnew, ?_⟩
  rintro session settings r entry hentry rfl rfl rfl
  refine ⟨fun p hplan => ?_, fun hreturns hne hfree => ?_⟩
  · obtain ⟨entry', first', last', hentry', hselection', hrevised, hmethod⟩ := plan_sources hplan
    obtain rfl := Option.some.inj (hentry.symm.trans hentry')
    obtain ⟨rfl, rfl⟩ := Prod.mk.inj (Except.ok.inj (hselection.symm.trans hselection'))
    exact ⟨hrevised, hmethod⟩
  · exact exists_plan hentry hselection hreturns hnew hne hfree

/-- A method with periods in a number, a comment, a literal and a group. -/
def growing : String :=
  "grow\n| n |\nn := 1.5 \"a.\" max: 2.\nself at: 'b.c'; put: (n. n) .\n^n"

theorem regular_growing : (Source.ofText growing).Regular := by
  have hdigits : ∀ k < (Source.ofText growing).size, (Source.ofText growing).isTerminator k = true →
      (Source.ofText growing).byteIs Byte.isDigit (k + 1) = false := by decide +kernel
  refine ⟨⟨growing.toList.take 5, growing.toList.drop 5, (List.take_append_drop ..).symm,
    by decide +kernel, by decide +kernel⟩, fun k _ hends => ?_⟩
  rw [Source.endsStatement, Bool.and_eq_true] at hends
  rcases Nat.lt_or_ge k (Source.ofText growing).size with hlt | hge
  · exact hdigits k hlt hends.2
  · exact Source.holds_of_size_le (by omega)

/-- An image with that method. -/
def growingImage : Image :=
  ((Image.empty.defineClass "Row" (some "Object") "Kernel").perform
    [.compile "Row" .instanceSide growing "growing"]).1

/-- Its first two statements are moved to a method `resize`. -/
theorem extraction_faithful_growing :
    (Source.ofText growing).Regular ∧
      selectionRange [2, 1] (Source.ofText growing).statements.length = .ok (1, 2) ∧
      (gists growing).map (·.text) =
        ["n := 1.5 \"a.\" max: 2", "self at: 'b.c'; put: (n. n)", "^n"] ∧
      gists (revised growing "resize" 1 2) =
        ⟨"self resize", .expression, [⟨"resize", .unary, .self, 1⟩]⟩ :: (gists growing).drop 2 ∧
      (Source.ofText (newMethod growing "resize" 1 2)).NoPreamble ∧
      gists (newMethod growing "resize" 1 2) = (gists growing).take 2 ∧
      ∃ p, plan ⟨growingImage, []⟩ .standard
          ⟨"Row", .instanceSide, "grow", [2, 1], "resize", false⟩ = .ok p ∧
        p.revisedSource = revised growing "resize" 1 2 ∧
        p.newMethodSource = newMethod growing "resize" 1 2 := by
  have hcount : (Source.ofText growing).statements.length = 3 := by decide +kernel
  have hsorted : sortedIndices [2, 1] = [1, 2] := by
    simp [sortedIndices, List.mergeSort, List.MergeSort.Internal.splitInTwo, List.eraseReps,
      List.eraseRepsBy, List.eraseRepsBy.loop]
  have hselection : selectionRange [2, 1] 3 = .ok (1, 2) := by
    rw [selectionRange, hsorted]
    rfl
  rw [← hcount] at hselection
  have hnew : Selector.kind? "resize" = some .unary := by decide +kernel
  have htext : newMethod growing "resize" 1 2 =
      "resize\n    n := 1.5 \"a.\" max: 2.\n    self at: 'b.c'; put: (n. n)" := by decide +kernel
  have hpreamble : (Source.ofText (newMethod growing "resize" 1 2)).NoPreamble := by
    rw [htext]
    exact ⟨by decide +kernel, by decide +kernel⟩
  have hkinds : (selected (.ofText growing) 1 2).all (·.kind != .returns) = true := by decide +kernel
  obtain ⟨hrevised, hmethod, hplans⟩ := extraction_faithful regular_growing hselection hnew
  obtain ⟨hsources, hplan⟩ := hplans ⟨growingImage, []⟩ .standard
    ⟨"Row", .instanceSide, "grow", [2, 1], "resize", false⟩ ⟨growing, "growing"⟩ (by decide +kernel) rfl
    rfl rfl
  obtain ⟨p, hp⟩ := hplan (fun st hst => bne_iff_ne.1 (List.all_eq_true.1 hkinds st hst)) (by decide)
    fun _ => by decide +kernel
  exact ⟨regular_growing, hselection, by decide +kernel, hrevised, hpreamble, hmethod hpreamble,
    p, hp, hsources p hp⟩

end ExtractMethod

end MethodBrowser
