import MethodBrowser.Proofs.Edit.RenameComplete
import MethodBrowser.Proofs.LiteralIndependence
import MethodBrowser.Proofs.Plan.BodyWrites
import MethodBrowser.Proofs.Source.CharacterSpans

/-!
# Nothing is cut inside a character

Whatever the analysis of a method or a change of it cuts out of a text is in range and consists of whole
characters (`wholeCharacters`). This holds of every text, whether or not it is a method: of each token
that can be read at any offset, of the sends and statements that are found, of the signature, and of the
places where a rename or an inlining puts new text.

**Changing a text.** Edits copy the stretches between them. `Edit.applyAll?` checks each stretch and gives
no text if one of them cuts a character in two; on edits of whole characters it never fails
(`Edit.applyAll?_eq`). A renamed method keeps what follows its signature. Its sends are renamed first,
but all of them stand in the body, so the signature still ends where it did.
-/

namespace MethodBrowser

open Text

namespace Text

instance (text : String) (s : Span) : Decidable (HasSpan text s) :=
  decidable_of_iff
    (s.start ≤ s.stop ∧ s.stop ≤ text.utf8ByteSize ∧ String.Pos.Raw.IsValid text ⟨s.start⟩ ∧
      String.Pos.Raw.IsValid text ⟨s.stop⟩)
    ⟨fun h => ⟨h.1, h.2.1, h.2.2.1, h.2.2.2⟩, fun h => ⟨h.le, h.le_size, h.start, h.stop⟩⟩

/-- Cuts a span out of a text, if it consists of whole characters. -/
def cut? (text : String) (s : Span) : Option String :=
  if HasSpan text s then some (String.Pos.Raw.extract text ⟨s.start⟩ ⟨s.stop⟩) else none

theorem cut?_of_hasSpan {text : String} {s : Span} (h : HasSpan text s) :
    cut? text s = some (String.Pos.Raw.extract text ⟨s.start⟩ ⟨s.stop⟩) :=
  if_pos h

example : cut? "é x" ⟨0, 2⟩ = some "é" ∧ cut? "é x" ⟨1, 3⟩ = none := by decide

end Text

/-! ## Edits -/

namespace Edit

variable {text : String} {i : Nat} {es : List Edit}

/-- Splices edits that are in order into a text, unless a character would be cut in two. -/
def splice? (text : String) (i : Nat) : List Edit → Option String
  | [] => Text.cut? text ⟨i, text.utf8ByteSize⟩
  | e :: es =>
    if e.span.start < i || text.utf8ByteSize < e.span.stop then splice? text i es
    else do
      let kept ← Text.cut? text ⟨i, e.span.start⟩
      let rest ← splice? text e.span.stop es
      return kept ++ e.replacement ++ rest

/-- The text after all edits, unless a character would be cut in two. -/
def applyAll? (text : String) (edits : List Edit) : Option String := splice? text 0 (sorted edits)

theorem splice?_eq (hi : IsCut text i) (h : ∀ e ∈ es, HasSpan text e.span) :
    splice? text i es = some (splice text i es) := by
  induction es generalizing i with
  | nil => exact Text.cut?_of_hasSpan (hasSpan_of_cuts hi.le hi (isCut_end text))
  | cons e es ih =>
    rw [List.forall_mem_cons] at h
    simp only [splice?, splice]
    split
    · exact ih hi h.2
    · next hkept =>
      rw [Bool.or_eq_true, decide_eq_true_eq, decide_eq_true_eq, not_or] at hkept
      rw [Text.cut?_of_hasSpan (hasSpan_of_cuts (Nat.le_of_not_lt hkept.1) hi h.1.start), ih h.1.stop h.2]
      rfl

theorem applyAll?_eq {edits : List Edit} (h : ∀ e ∈ edits, HasSpan text e.span) :
    applyAll? text edits = some (applyAll text edits) :=
  splice?_eq (isCut_zero text) fun e he => h e ((sorted_perm edits).mem_iff.1 he)

end Edit

theorem Source.hasSpan_renameEdits (src : Source) (old new : String) :
    ∀ e ∈ src.renameEdits old new, HasSpan src.text e.span := by
  intro e he
  rw [renameEdits] at he
  split at he
  · obtain ⟨run, hrun, hmem⟩ := mem_keywordEdits.1 he
    exact hasSpan_of_mem_tokens (mem_runsOfSelector.1 hrun).1 (List.of_mem_zip hmem).1
  · obtain ⟨send, hsend, -, rfl⟩ := mem_simpleEdits.1 he
    exact hasSpan_of_mem_simpleSends hsend

/-! ## Signatures -/

theorem exists_headerLine (text : String) :
    ∃ rest, text.toList = (splitHeader text).1.toList ++ rest := by
  rcases oneLine_or_newline text.toList with hone | ⟨line, rest, htext, hline⟩
  · rw [splitHeader_of_oneLine hone]
    exact ⟨[], (List.append_nil _).symm⟩
  · obtain ⟨l, crs, rfl, hcrs, hlast⟩ := exists_carriageReturns line
    rw [headerLine_of_newline htext (fun h => hline (List.mem_append_left _ h)) hcrs hlast,
      String.toList_ofList]
    exact ⟨crs ++ '\n' :: rest, htext.trans (List.append_assoc ..)⟩

theorem hasSpan_headerLine (text : String) : HasSpan text ⟨0, (splitHeader text).1.utf8ByteSize⟩ := by
  obtain ⟨rest, htext⟩ := exists_headerLine text
  have hspan := hasSpan_of_append (l := []) (w := (splitHeader text).1.toList) htext
  rwa [String.utf8Len_nil, Nat.zero_add, String.utf8Len_toList] at hspan

/-- The signature of a text consists of whole characters, and so does each of its tokens. -/
theorem Header.hasSpan_of_ofText? {text : String} {h : Header} (hp : ofText? text = some h) :
    HasSpan text ⟨h.signatureEnd, text.utf8ByteSize⟩ ∧
      ∀ token ∈ h.parts ++ h.arguments, ∃ s, s.stop ≤ h.signatureEnd ∧ Text.cut? text s = some token := by
  obtain ⟨rest', htext⟩ := exists_headerLine text
  obtain ⟨sig, rest, hreading⟩ := parse?_eq_some hp
  have hend : h.signatureEnd = String.utf8Len sig := by
    rw [hreading.signatureEnd, utf8Len_signature hreading.chars]
  rw [hreading.line_eq, List.append_assoc] at htext
  refine ⟨?_, fun token htoken => ?_⟩
  · have hcut := isCut_of_append htext
    rw [hend]
    exact hasSpan_of_cuts hcut.le hcut (isCut_end text)
  · obtain ⟨l, r, hsig⟩ := hreading.tokens hp token htoken
    rw [← hsig, List.append_assoc] at htext
    refine ⟨⟨String.utf8Len l, String.utf8Len l + String.utf8Len token.toList⟩, ?_, ?_⟩
    · rw [hend, ← hsig, String.utf8Len_append, String.utf8Len_append]
      exact Nat.le_add_right _ _
    · rw [Text.cut?_of_hasSpan (hasSpan_of_append htext)]
      have hslice := (Source.ofText text).slice_of_cut htext
      rw [String.ofList_toList] at hslice
      exact congrArg some hslice

/-! ## Inlining -/

namespace InlineMethod

variable {src : Source}

theorem hasSpan_of_mem_statements {st : Statement}
    (h : st ∈ src.statements ++ headerLineStatements src) :
    HasSpan src.text st.span ∧
      (st.kind = .returns → HasSpan src.text { st.span with start := st.span.start + 1 }) := by
  rcases List.mem_append.1 h with h | h
  · exact Source.hasSpan_of_mem_statementsIn h src.isCut_regionStart src.isCut_size
  · simp only [headerLineStatements] at h
    split at h
    · next header hp =>
      exact Source.hasSpan_of_mem_statementsIn h (Header.hasSpan_of_ofText? hp).1.start
        (hasSpan_headerLine src.text).stop
    · simp at h

/-- A site reaches from one word to the end of another. -/
theorem hasSpan_of_mem_selfSendSites {selector : String} {site : Span}
    (h : site ∈ selfSendSites src selector) : HasSpan src.text site := by
  obtain ⟨receiver, hreceiver, hsite⟩ := mem_sitesAmong h
  obtain ⟨k, -, hat⟩ := List.mem_filterMap.1 hreceiver
  have hbounds := src.wordAt?_bounds hat
  simp only [siteAt?] at hsite
  split at hsite
  · split at hsite
    · simp at hsite
    · next word hw =>
      split at hsite
      · obtain rfl := Option.some.inj hsite
        have hgap := src.le_skipGap receiver.stop src.sendRegion.span.stop
        have hbounds' := src.wordAt?_bounds hw
        exact hasSpan_of_cuts (by simp only; omega) (Source.hasSpan_of_wordAt? hat).start
          (Source.hasSpan_of_wordAt? hw).stop
      · simp at hsite
  · simp at hsite

end InlineMethod

/-! ## Selectors -/

/-- A colon is the last character of every keyword. -/
theorem Selector.hasSpan_of_mem_parts {selector part : String}
    (h : selector.toList.getLast? = some ':') (hpart : part ∈ parts selector) :
    HasSpan part ⟨0, part.utf8ByteSize - 1⟩ := by
  obtain ⟨words, -, hcut, -⟩ := exists_words h
  rw [parts, hcut, withColons, List.map_map] at hpart
  obtain ⟨w, -, rfl⟩ := List.mem_map.1 hpart
  have htext : (String.ofList (w ++ [':'])).toList = [] ++ w ++ [':'] := String.toList_ofList ..
  have hspan := hasSpan_of_append htext
  have hsize : (String.ofList (w ++ [':'])).utf8ByteSize - 1 = String.utf8Len w := by
    rw [String.utf8ByteSize_ofList, String.utf8Len_append]
    rfl
  rw [String.utf8Len_nil, Nat.zero_add] at hspan
  exact hsize ▸ hspan

/-! ## The theorem -/

/-- What is marked, read and changed in a text consists of whole characters. -/
structure WholeCharacters (text : String) : Prop where
  /-- All bytes of a character are marked alike. -/
  marks : ∀ l c r, text.toList = l ++ c :: r →
    ∃ kind, ∀ k < c.utf8Size, (Source.ofText text).kind? (String.utf8Len l + k) = some kind
  /-- What follows a `$`. -/
  payloads : ∀ i, (Source.ofText text).codeAt i '$' = true → HasSpan text ⟨i + 1, text.utf8ByteSize⟩
  headerLine : HasSpan text ⟨0, (splitHeader text).1.utf8ByteSize⟩
  words : ∀ i limit word, (Source.ofText text).wordAt? i limit = some word → HasSpan text word
  operators : ∀ i limit token, (Source.ofText text).binaryAt? i limit = some token → HasSpan text token
  keywords : ∀ i limit token, (Source.ofText text).keywordAt? i limit = some token → HasSpan text token
  /-- The word before a keyword. -/
  receivers : ∀ i floor, (Source.ofText text).runStart (fun c => Byte.isIdent c.byte) i floor < i →
    HasSpan text ⟨(Source.ofText text).runStart (fun c => Byte.isIdent c.byte) i floor, i⟩
  /-- The declaration of temporaries and the names in it. -/
  temporaries : ∀ block,
    ((Source.ofText text).preamble (Source.ofText text).bodyStart).temporaries = some block →
      HasSpan text block ∧
        ∀ word ∈ (Source.ofText text).words ⟨block.start + 1, block.stop - 1⟩, HasSpan text word
  sends : ∀ send ∈ (Source.ofText text).sends, HasSpan text send.span ∧
    ∀ token ∈ (Source.ofText text).tokensOf send, HasSpan text token
  /-- The statements of the body and those after a signature, with a caret and without it. -/
  statements : ∀ st ∈ (Source.ofText text).statements ++
      InlineMethod.headerLineStatements (Source.ofText text),
    HasSpan text st.span ∧
      (st.kind = .returns → HasSpan text { st.span with start := st.span.start + 1 })
  /-- What follows a signature, and the tokens and arguments in it. -/
  signature : ∀ h, Header.ofText? text = some h → HasSpan text ⟨h.signatureEnd, text.utf8ByteSize⟩ ∧
    ∀ token ∈ h.parts ++ h.arguments, ∃ s, s.stop ≤ h.signatureEnd ∧ Text.cut? text s = some token
  /-- The keywords of a selector without their colons. -/
  selectors : ∀ selector : String, selector.toList.getLast? = some ':' →
    ∀ part ∈ Selector.parts selector, HasSpan part ⟨0, part.utf8ByteSize - 1⟩
  renamed : ∀ old new,
    (∀ e ∈ (Source.ofText text).renameEdits old new, HasSpan text e.span) ∧
      Edit.applyAll? text ((Source.ofText text).renameEdits old new) =
        some (renameSends text old new).source
  /-- The new signature is put in front of what follows the old one. -/
  renamedMethod : ∀ old new r, renameMethod? text old new = some r →
    ∃ h after, Header.ofText? text = some h ∧
      Text.cut? (renameSends text old new).source
        ⟨h.signatureEnd, (renameSends text old new).source.utf8ByteSize⟩ = some after ∧
      r.source = (Header.ofParts h.kind (Selector.tokens new) h.arguments).render ++ after
  sites : ∀ selector, ∀ site ∈ InlineMethod.selfSendSites (Source.ofText text) selector,
    HasSpan text site
  inlined : ∀ selector replacement,
    let edits := (InlineMethod.selfSendSites (Source.ofText text) selector).map fun site =>
      (⟨site, replacement⟩ : Edit)
    Edit.applyAll? text edits = some (Edit.applyAll text edits)

/-- Neither the analysis of a text nor a change of it cuts a character in two or reaches past the end of
the text. -/
theorem wholeCharacters (text : String) : WholeCharacters text where
  marks l c r h := by
    refine ⟨(Mode.code.after l).kind c, fun k hk => ?_⟩
    obtain ⟨b, hcell, -⟩ := (Source.ofText text).cell_of_character h hk
    rw [Source.kind?, hcell]
    rfl
  payloads i h := by
    have hcut := (Source.isCut_of_isAscii (Source.isAscii_of_codeAt (by unfold IsAscii; decide) h)).2
    exact hasSpan_of_cuts hcut.le hcut (isCut_end text)
  headerLine := hasSpan_headerLine text
  words i limit word h := Source.hasSpan_of_wordAt? h
  operators i limit token h := Source.hasSpan_of_binaryAt? h
  keywords i limit token h := Source.hasSpan_of_keywordAt? h
  receivers i floor h := Source.hasSpan_runStart h
  temporaries block h := by
    rw [Source.temporaries_preamble] at h
    refine ⟨Source.hasSpan_of_temporariesAt? h, fun word hword => ?_⟩
    obtain ⟨k, -, hk⟩ := List.mem_filterMap.1 hword
    exact Source.hasSpan_of_wordAt? hk
  sends send h := ⟨Source.hasSpan_of_mem_sends h, fun token => Source.hasSpan_of_mem_tokensOf h⟩
  statements st h := InlineMethod.hasSpan_of_mem_statements h
  signature h hp := Header.hasSpan_of_ofText? hp
  selectors selector h part hpart := Selector.hasSpan_of_mem_parts h hpart
  renamed old new := by
    have hspans := (Source.ofText text).hasSpan_renameEdits old new
    refine ⟨hspans, ?_⟩
    rw [source_renameSends]
    exact Edit.applyAll?_eq hspans
  renamedMethod old new r h := by
    obtain ⟨header, hp, rfl⟩ := Option.map_eq_some_iff.1 h
    have hrenamed := (ofText?_renameSends text old new).trans hp
    refine ⟨header, _, hp, Text.cut?_of_hasSpan (Header.hasSpan_of_ofText? hrenamed).1, rfl⟩
  sites selector site h := InlineMethod.hasSpan_of_mem_selfSendSites h
  inlined selector replacement := by
    refine Edit.applyAll?_eq fun e he => ?_
    obtain ⟨site, hsite, rfl⟩ := List.mem_map.1 he
    exact InlineMethod.hasSpan_of_mem_selfSendSites hsite

end MethodBrowser
