import MethodBrowser.Proofs.Edit.Splice
import MethodBrowser.Proofs.Header.Signature
import MethodBrowser.Proofs.Source.Body

/-!
# The header of a text

A text whose header can be read is a signature and what follows it (`Header.ofText?_eq_some`). If
another signature is put in its place, it is read there (`Header.ofText?_replaceHeader`), and edits
of the body leave the header as it is (`Header.ofText?_applyAll`).

The carriage returns at the end of the first line are no part of the header, but only if there is a
second line. Signatures contain none that would be lost.
-/

namespace MethodBrowser

/-- The header line ends before its last carriage returns. -/
theorem headerLine_of_newline {text : String} {line crs body : List Char}
    (htext : text.toList = line ++ crs ++ '\n' :: body) (hline : '\n' ∉ line)
    (hcrs : ∀ c ∈ crs, c = '\r') (hlast : line.getLast? ≠ some '\r') :
    (splitHeader text).1 = String.ofList line := by
  have hnot : '\n' ∉ line ++ crs := by
    rw [List.mem_append, not_or]
    exact ⟨hline, fun hmem => absurd (hcrs _ hmem) (by decide)⟩
  have hdrop : ((line ++ crs).reverse.dropWhile (· = '\r')).reverse = line := by
    rw [List.reverse_append, List.dropWhile_append_of_pos (by simpa using hcrs)]
    cases hrev : line.reverse with
    | nil => rw [List.reverse_eq_nil_iff.1 hrev]; rfl
    | cons c cs =>
      have hc : c ≠ '\r' := by
        rintro rfl
        rw [List.getLast?_eq_head?_reverse, hrev] at hlast
        simp at hlast
      rw [List.dropWhile_cons_of_neg (by simpa using hc), ← hrev, List.reverse_reverse]
  rw [splitHeader_of_newline htext hnot]
  simp only [hdrop]

/-- A line is its text and the carriage returns at its end. -/
theorem exists_carriageReturns (line : List Char) :
    ∃ l crs, line = l ++ crs ∧ (∀ c ∈ crs, c = '\r') ∧ l.getLast? ≠ some '\r' := by
  refine ⟨(line.reverse.dropWhile (· = '\r')).reverse,
    (line.reverse.takeWhile (· = '\r')).reverse, ?_, fun c hc => ?_, ?_⟩
  · rw [← List.reverse_append, List.takeWhile_append_dropWhile, List.reverse_reverse]
  · simpa using Header.mem_takeWhile (List.mem_reverse.1 hc)
  · have hstops := Header.stops_dropWhile (· = '\r') line.reverse
    rw [List.getLast?_reverse]
    intro heq
    simp [Header.Stops, heq] at hstops

namespace Header

/-! ## What follows the signature -/

/-- What may follow a signature in a text: the rest of its line, alone or with more lines. -/
def Follows (kind : SelectorKind) (after : List Char) : Prop :=
  '\n' ∉ after ∧ Ends kind after ∨
    ∃ rest crs body, after = rest ++ crs ++ '\n' :: body ∧ '\n' ∉ rest ∧ (∀ c ∈ crs, c = '\r') ∧
      rest.getLast? ≠ some '\r' ∧ Ends kind rest

theorem follows_newline (kind : SelectorKind) (body : List Char) : Follows kind ('\n' :: body) :=
  .inr ⟨[], [], body, rfl, by simp, by simp, by simp, ends_nil kind⟩

theorem Follows.imp {kind kind' : SelectorKind} {after : List Char} (h : Follows kind after)
    (himp : ∀ rest, Ends kind rest → Ends kind' rest) : Follows kind' after := by
  rcases h with ⟨hline, hends⟩ | ⟨rest, crs, body, heq, hline, hcrs, hlast, hends⟩
  · exact .inl ⟨hline, himp _ hends⟩
  · exact .inr ⟨rest, crs, body, heq, hline, hcrs, hlast, himp _ hends⟩

theorem isPlain_of_isSignatureChar {c : Char} (h : isSignatureChar c = true) :
    IsPlain c ∧ c ≠ '\n' := by
  simp only [isSignatureChar, isLineBlank, Bool.or_eq_true, beq_iff_eq] at h
  rcases h with ((((rfl | rfl) | rfl) | h) | rfl) | h
  · exact ⟨by unfold IsPlain IsAscii; decide, by decide⟩
  · exact ⟨by unfold IsPlain IsAscii; decide, by decide⟩
  · exact ⟨by unfold IsPlain IsAscii; decide, by decide⟩
  · exact ⟨isPlain_of_isIdentRest h, by rintro rfl; exact absurd h (by decide)⟩
  · exact ⟨by unfold IsPlain IsAscii; decide, by decide⟩
  · have hbinary : (c.toNat < 128 ∧ c ≠ '\'' ∧ c ≠ '"' ∧ c ≠ '$') ∧ c ≠ '\n' :=
      of_decide_eq_true (of_isBinaryChar (p := fun c =>
        decide ((c.toNat < 128 ∧ c ≠ '\'' ∧ c ≠ '"' ∧ c ≠ '$') ∧ c ≠ '\n')) (by decide) h)
    exact hbinary

/-- A text is a signature and what follows it. -/
structure TextReading (text : List Char) (h : Header) (sig after : List Char) : Prop where
  text_eq : text = sig ++ after
  signatureEnd : h.signatureEnd = String.utf8Len sig
  ne_nil : sig ≠ []
  chars : ∀ c ∈ sig, isSignatureChar c = true
  wellFormed : h.WellFormed
  follows : Follows h.kind after

theorem utf8Len_signature {sig : List Char} (h : ∀ c ∈ sig, isSignatureChar c = true) :
    String.utf8Len sig = sig.length :=
  utf8Len_of_ascii fun c hc => (isPlain_of_isSignatureChar (h c hc)).1.1

theorem newline_not_mem {sig : List Char} (h : ∀ c ∈ sig, isSignatureChar c = true) : '\n' ∉ sig :=
  fun hmem => (isPlain_of_isSignatureChar (h _ hmem)).2 rfl

/-- A header is read from the signature that a text starts with. -/
theorem ofText?_eq_some {text : String} {h : Header} (hp : ofText? text = some h) :
    ∃ sig after, TextReading text.toList h sig after := by
  rcases oneLine_or_newline text.toList with hone | ⟨line, body, htext, hline⟩
  · rw [ofText?, splitHeader_of_oneLine hone] at hp
    obtain ⟨sig, rest, hreading⟩ := parse?_eq_some hp
    refine ⟨sig, rest, hreading.line_eq, ?_, hreading.ne_nil, hreading.chars, hreading.wellFormed,
      .inl ⟨fun hmem => hone ?_, hreading.ends⟩⟩
    · rw [utf8Len_signature hreading.chars, hreading.signatureEnd]
    · rw [hreading.line_eq]
      exact List.mem_append_right _ hmem
  · obtain ⟨l, crs, rfl, hcrs, hlast⟩ := exists_carriageReturns line
    rw [List.mem_append, not_or] at hline
    rw [ofText?, headerLine_of_newline htext hline.1 hcrs hlast] at hp
    obtain ⟨sig, rest, hreading⟩ := parse?_eq_some hp
    have hl := hreading.line_eq
    rw [String.toList_ofList] at hl
    subst hl
    refine ⟨sig, rest ++ crs ++ '\n' :: body, by simpa using htext, ?_, hreading.ne_nil,
      hreading.chars, hreading.wellFormed, .inr ⟨rest, crs, body, rfl, ?_, hcrs, ?_, hreading.ends⟩⟩
    · rw [utf8Len_signature hreading.chars, hreading.signatureEnd]
    · exact fun hmem => hline.1 (List.mem_append_right _ hmem)
    · intro heq
      rw [List.getLast?_append, heq] at hlast
      simp at hlast

/-! ## Rendered signatures -/

theorem mem_intercalate {sep : List Char} {pieces : List (List Char)} {c : Char}
    (h : c ∈ sep.intercalate pieces) : c ∈ sep ∨ ∃ piece ∈ pieces, c ∈ piece := by
  induction pieces with
  | nil => simp at h
  | cons piece pieces ih =>
    cases pieces with
    | nil => exact .inr ⟨piece, by simp, by simpa using h⟩
    | cons piece' pieces =>
      rw [List.intercalate_cons_cons, List.mem_append, List.mem_append] at h
      rcases h with (h | h) | h
      · exact .inr ⟨piece, by simp, h⟩
      · exact .inl h
      · rcases ih h with h | ⟨p, hp, h⟩
        · exact .inl h
        · exact .inr ⟨p, List.mem_cons_of_mem _ hp, h⟩

/-- Rendered signatures consist of signature characters other than the carriage return. -/
theorem mem_render {h : Header} (hwf : h.WellFormed) {c : Char} (hc : c ∈ h.render.toList) :
    isSignatureChar c = true ∧ c ≠ '\r' := by
  obtain ⟨selector, kind, parts, arguments, signatureEnd⟩ := h
  obtain ⟨hkind, hparts, harity, harguments⟩ := hwf
  simp only at hkind hparts harity harguments
  subst hparts
  have hword : ∀ {w : List Char}, MethodBrowser.isIdentifier w = true → c ∈ w →
      isSignatureChar c = true ∧ c ≠ '\r' := fun hw hc =>
    ⟨isSignatureChar_of_isIdentifier hw c hc, by
      rintro rfl
      exact absurd (isIdentRest_of_isIdentifier hw _ hc) (by decide)⟩
  cases kind with
  | unary => exact hword (Selector.kind?_eq_unary_iff.1 hkind) hc
  | binary =>
    obtain ⟨-, -, hop⟩ := Selector.kind?_eq_binary_iff.1 hkind
    have hoperator : c ∈ selector.toList → isSignatureChar c = true ∧ c ≠ '\r' := fun hc =>
      ⟨isSignatureChar_of_isBinaryChar (hop c hc), by
        rintro rfl
        exact absurd (hop _ hc) (by decide)⟩
    cases arguments with
    | nil => exact hoperator hc
    | cons a arguments =>
      simp only [render, renderWith, String.toList_append, List.mem_append] at hc
      rcases hc with (hc | hc) | hc
      · exact hoperator hc
      · obtain rfl : c = ' ' := by simpa using hc
        decide
      · exact hword (harguments a (by simp)) hc
  | keyword =>
    obtain ⟨words, -, hident, htokens⟩ := Selector.tokens_of_keyword hkind
    simp only [render, renderWith, htokens, String.toList_intercalate] at hc
    rcases mem_intercalate hc with hc | ⟨piece, hpiece, hc⟩
    · obtain rfl : c = ' ' := by simpa using hc
      decide
    · obtain ⟨-, ⟨⟨part, a⟩, hp, rfl⟩, rfl⟩ := by simpa only [List.mem_map] using hpiece
      obtain ⟨hpart, ha⟩ := List.of_mem_zip hp
      obtain ⟨-, ⟨w, hw, rfl⟩, rfl⟩ := by
        simpa only [Selector.keywordsOf, Selector.withColons, List.mem_map] using hpart
      simp only [String.toList_append, String.toList_ofList, List.mem_append] at hc
      rcases hc with ((hc | hc) | hc) | hc
      · exact hword (hident w hw) hc
      · obtain rfl : c = ':' := by simpa using hc
        decide
      · obtain rfl : c = ' ' := by simpa using hc
        decide
      · exact hword (harguments a ha) hc

/-- A signature is read from the text that it is put in front of. -/
theorem ofText?_render {text : String} {h : Header} {after : List Char} (hwf : h.WellFormed)
    (hafter : Follows h.kind after) (htext : text.toList = h.render.toList ++ after) :
    ofText? text = some { h with signatureEnd := h.render.toList.length } := by
  have hnot : '\n' ∉ h.render.toList := newline_not_mem fun c hc => (mem_render hwf hc).1
  rcases hafter with ⟨hline, hends⟩ | ⟨rest, crs, body, rfl, hline, hcrs, hlast, hends⟩
  · have hone : '\n' ∉ text.toList := by
      rw [htext, List.mem_append, not_or]
      exact ⟨hnot, hline⟩
    rw [ofText?, splitHeader_of_oneLine hone]
    exact parse?_render hwf hends htext
  · have hlast' : (h.render.toList ++ rest).getLast? ≠ some '\r' := by
      intro heq
      rw [List.getLast?_append] at heq
      cases hr : rest.getLast? with
      | some c =>
        rw [hr] at heq hlast
        exact hlast heq
      | none =>
        rw [hr, Option.none_or] at heq
        exact (mem_render hwf (List.mem_of_getLast? heq)).2 rfl
    have htext' : text.toList = h.render.toList ++ rest ++ crs ++ '\n' :: body := by
      rw [htext]
      simp
    have hnot' : '\n' ∉ h.render.toList ++ rest := by
      rw [List.mem_append, not_or]
      exact ⟨hnot, hline⟩
    rw [ofText?, headerLine_of_newline htext' hnot' hcrs hlast']
    exact parse?_render hwf hends (String.toList_ofList ..)

/-- The signature is exchanged and what follows it stays. -/
theorem toList_replaceHeader {text : String} {h : Header} {sig after : List Char}
    (htext : text.toList = sig ++ after) (hend : h.signatureEnd = String.utf8Len sig)
    (new : Header) : (replaceHeader text h new).toList = new.render.toList ++ after := by
  have hnil : Edit.Spliced (String.utf8Len sig) [] after after := .nil
  have hrest := Edit.splice_of_spliced htext hnil
  rw [← hend] at hrest
  rw [replaceHeader, String.toList_append]
  exact congrArg (new.render.toList ++ ·) hrest

/-- The new signature is read after a replacement. -/
theorem ofText?_replaceHeader {text : String} {h new : Header} (hp : ofText? text = some h)
    (hwf : new.WellFormed) (himp : ∀ rest, Ends h.kind rest → Ends new.kind rest) :
    ofText? (replaceHeader text h new) =
      some { new with signatureEnd := new.render.toList.length } := by
  obtain ⟨sig, after, hreading⟩ := ofText?_eq_some hp
  exact ofText?_render hwf (hreading.follows.imp himp)
    (toList_replaceHeader hreading.text_eq hreading.signatureEnd new)

/-! ## Edits of the body -/

/-- Texts with the same first line have the same header. -/
theorem ofText?_congr {text text' : String} {line body body' : List Char}
    (htext : text.toList = line ++ '\n' :: body) (htext' : text'.toList = line ++ '\n' :: body')
    (hline : '\n' ∉ line) : ofText? text' = ofText? text := by
  rw [ofText?, ofText?, splitHeader_of_newline htext hline, splitHeader_of_newline htext' hline]

end Header

namespace Edit

open String.Pos.Raw.extract in
theorem go₂_append {l : List Char} (r : List Char) {i n : Nat} (h : i + String.utf8Len l ≤ n) :
    go₂ (l ++ r) ⟨i⟩ ⟨n⟩ = l ++ go₂ r ⟨i + String.utf8Len l⟩ ⟨n⟩ := by
  induction l generalizing i with
  | nil => rfl
  | cons c l ih =>
    have hpos := Char.utf8Size_pos c
    rw [String.utf8Len_cons] at h ⊢
    have hne : (⟨i⟩ : String.Pos.Raw) ≠ ⟨n⟩ := by
      rw [Ne, String.Pos.Raw.mk.injEq]
      omega
    rw [List.cons_append, go₂, if_neg hne]
    have hrec := ih (i := i + c.utf8Size) (by omega)
    rw [show i + (String.utf8Len l + c.utf8Size) = i + c.utf8Size + String.utf8Len l by omega]
    exact congrArg (c :: ·) hrec

/-- A cut of a text at or after `l` starts with `l`, wherever it ends. -/
theorem exists_extract {text : String} {l r : List Char} {n : Nat} (htext : text.toList = l ++ r)
    (hn : String.utf8Len l ≤ n) :
    ∃ m, (String.Pos.Raw.extract text ⟨0⟩ ⟨n⟩).toList = l ++ m := by
  by_cases hzero : n = 0
  · obtain rfl : l = [] := by
      cases l with
      | nil => rfl
      | cons c l =>
        have hpos := Char.utf8Size_pos c
        rw [String.utf8Len_cons] at hn
        omega
    exact ⟨_, rfl⟩
  · have hlt : ¬(0 ≥ n) := by omega
    rw [String.Pos.Raw.extract, if_neg hlt, String.toList_ofList, htext]
    cases hcs : l ++ r with
    | nil =>
      obtain ⟨rfl, rfl⟩ := List.append_eq_nil_iff.1 hcs
      exact ⟨[], rfl⟩
    | cons c cs =>
      rw [String.Pos.Raw.extract.go₁, if_pos (show (0 : String.Pos.Raw) = ⟨0⟩ from rfl), ← hcs]
      exact ⟨_, go₂_append r (i := 0) (by omega)⟩

/-- Text before all edits is copied, whatever the edits are. -/
theorem exists_splice (es : List Edit) {text : String} {l r : List Char}
    (htext : text.toList = l ++ r) (hes : ∀ e ∈ es, String.utf8Len l ≤ e.span.start) :
    ∃ r', (splice text 0 es).toList = l ++ r' := by
  induction es with
  | nil =>
    refine ⟨r, ?_⟩
    rw [splice, ← htext]
    exact congrArg String.toList (String.extract_zero_rawEndPos text)
  | cons e es ih =>
    rw [List.forall_mem_cons] at hes
    rw [splice]
    split
    · exact ih hes.2
    · obtain ⟨m, hm⟩ := exists_extract htext hes.1
      rw [String.toList_append, String.toList_append, hm]
      exact ⟨_, by rw [List.append_assoc, List.append_assoc]⟩

theorem exists_applyAll_first {text : String} {line body : List Char} {edits : List Edit}
    (htext : text.toList = line ++ '\n' :: body)
    (hes : ∀ e ∈ edits, String.utf8Len line + 1 ≤ e.span.start) :
    ∃ body', (applyAll text edits).toList = line ++ '\n' :: body' := by
  have htext' : text.toList = (line ++ ['\n']) ++ body := by simpa using htext
  obtain ⟨body', hbody⟩ := exists_splice (sorted edits) htext' fun e he => by
    rw [String.utf8Len_append]
    exact hes e ((sorted_perm edits).mem_iff.1 he)
  rw [List.append_assoc] at hbody
  exact ⟨body', hbody⟩

end Edit

/-- Edits of the body leave the header as it is. -/
theorem Header.ofText?_applyAll {text : String} {edits : List Edit} (hline : '\n' ∈ text.toList)
    (hes : ∀ e ∈ edits, (Source.ofText text).bodyStart ≤ e.span.start) :
    ofText? (Edit.applyAll text edits) = ofText? text := by
  obtain ⟨line, body, htext, hnot⟩ := List.eq_append_cons_of_mem hline
  have hbody : (Source.ofText text).bodyStart = String.utf8Len line + 1 :=
    Source.bodyStart_of_newline htext hnot
  rw [hbody] at hes
  obtain ⟨body', htext'⟩ := Edit.exists_applyAll_first htext hes
  exact ofText?_congr htext htext' hnot

end MethodBrowser
