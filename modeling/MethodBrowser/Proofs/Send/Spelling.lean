import MethodBrowser.Proofs.Edit.Respelling
import MethodBrowser.Proofs.Selector
import MethodBrowser.Proofs.Send.Runs

/-!
# How sends are spelled

The tokens of a send are spelled by the text at their spans, so a send that is found has a
well-formed selector: a unary send an identifier, and a keyword send a row of identifiers with a
colon after each (`Source.keywordRun_spelling`).
-/

namespace MethodBrowser

namespace Source

variable {src : Source} {i l : Nat} {token word : Span}

/-! ## Words and keywords -/

/-- A run ends where its predicate does not hold. -/
theorem not_holds_runEnd {p : Cell → Bool} (h : src.runEnd p i l < l) :
    src.holds p (src.runEnd p i l) = false := by
  fun_induction runEnd src p i l with
  | case1 i hlt hp ih => exact ih h
  | case2 i hlt hp => simpa using hp
  | case3 i hlt => omega

theorem isWord_of_wordAt? (h : src.wordAt? i src.size = some word) :
    src.IsWord i word.size ∧ i + word.size = word.stop := by
  have hbounds := src.wordAt?_bounds h
  obtain ⟨hlt, hletter, hstart, hword⟩ := wordAt?_eq_some h
  have hsize : word.size = word.stop - i := by rw [Span.size, hbounds.1]
  have hstop : word.stop = src.identEnd i src.size := congrArg Span.stop hword
  refine ⟨⟨by omega, hletter, fun k hk => ?_, hstart, ?_⟩, by omega⟩
  · exact isWordChar_of_wordAt? h (by omega) (by omega)
  · rw [show i + word.size = src.identEnd i src.size by omega]
    simp only [isWordEnd, byteIs, Bool.not_eq_true']
    rcases Nat.lt_or_ge (src.identEnd i src.size) src.size with hlt' | hge
    · exact not_holds_runEnd hlt'
    · exact holds_of_size_le hge

/-- The word of a keyword, without its colon. -/
def wordOf (token : Span) : Span := ⟨token.start, token.stop - 1⟩

theorem isWord_of_keywordAt? (h : src.keywordAt? token.start src.size = some token) :
    src.IsWord token.start (wordOf token).size ∧
      token.start + (wordOf token).size = (wordOf token).stop ∧
      (wordOf token).stop + 1 = token.stop ∧ src.codeAt (wordOf token).stop ':' = true := by
  obtain ⟨word, hw, -, hcolon, htoken⟩ := keywordAt?_eq_some h
  have hstop : token.stop = word.stop + 1 := congrArg Span.stop htoken
  have hbounds := src.wordAt?_bounds hw
  have hwordOf : wordOf token = word := by
    cases word
    simp only [wordOf, Span.mk.injEq] at hbounds hstop ⊢
    omega
  obtain ⟨hword, hend⟩ := isWord_of_wordAt? hw
  rw [hwordOf]
  exact ⟨hword, hend, hstop.symm, hcolon⟩

/-! ## Spelling -/

/-- The characters of a word and of a colon after it. -/
theorem IsWord.exists_cut_colon {n : Nat} (h : src.IsWord i n)
    (hcolon : src.codeAt (i + n) ':' = true) :
    ∃ l w r, src.text.toList = l ++ (w ++ [':']) ++ r ∧ String.utf8Len l = i ∧ w.length = n ∧
      isIdentifier w = true ∧ Mode.code.after l = .code := by
  obtain ⟨l, w, r, htext, rfl, rfl, hident, hmode⟩ := h.exists_cut
  have hascii : src.holds Cell.isAscii (String.utf8Len l + w.length) = true :=
    holds_of_imp (fun c hc => by
      rw [Cell.isCodeChar, Bool.and_eq_true, beq_iff_eq] at hc
      rw [Cell.isAscii, hc.2]
      decide) hcolon
  obtain ⟨l', c, r', htext', hlen', hc⟩ := cut_of_isAscii hascii
  have hcell := cell_of_cut htext' hc
  have hlen : String.utf8Len (l ++ w) = String.utf8Len l' := by
    rw [String.utf8Len_append, utf8Len_of_isIdentifier hident, hlen']
  obtain ⟨rfl, rfl⟩ := append_inj_of_utf8Len (htext.symm.trans htext') hlen
  rw [codeAt, holds, ← hlen', hcell, Option.any_some, Cell.isCodeChar, Bool.and_eq_true,
    beq_iff_eq] at hcolon
  have hchar := congrArg Char.ofUInt8 hcolon.2
  rw [hc.ofUInt8] at hchar
  obtain rfl : c = ':' := hchar
  exact ⟨l, w, r', by rw [htext']; simp, rfl, rfl, hident, hmode⟩

/-- A word is spelled by an identifier. -/
theorem IsWord.spelling {n : Nat} (h : src.IsWord i n) :
    ∃ w, src.slice ⟨i, i + n⟩ = String.ofList w ∧ isIdentifier w = true := by
  obtain ⟨l, w, r, htext, rfl, rfl, hident, -⟩ := h.exists_cut
  exact ⟨w, by rw [← utf8Len_of_isIdentifier hident, slice_of_cut htext], hident⟩

/-- A colon after a word ends the text of a keyword. -/
theorem IsWord.slice_colon {n : Nat} (h : src.IsWord i n)
    (hcolon : src.codeAt (i + n) ':' = true) :
    src.slice ⟨i, i + n + 1⟩ = src.slice ⟨i, i + n⟩ ++ ":" := by
  obtain ⟨l, w, r, htext, rfl, rfl, hident, -⟩ := h.exists_cut_colon hcolon
  have hlen := utf8Len_of_isIdentifier hident
  have hkeyword := slice_of_cut htext
  have hword : src.slice ⟨String.utf8Len l, String.utf8Len l + String.utf8Len w⟩ =
      String.ofList w := by
    refine slice_of_cut (r := ':' :: r) ?_
    rw [htext]
    simp
  rw [String.utf8Len_append, hlen, ← Nat.add_assoc] at hkeyword
  rw [hlen] at hword
  rw [hword]
  exact hkeyword.trans String.ofList_append

/-- The text of a keyword is that of its word and a colon. -/
theorem slice_keyword (h : src.keywordAt? token.start src.size = some token) :
    src.slice token = src.slice (wordOf token) ++ ":" := by
  obtain ⟨hword, hend, hstop, hcolon⟩ := isWord_of_keywordAt? h
  rw [← hend] at hcolon
  have hkeyword := hword.slice_colon hcolon
  rwa [hend, hstop] at hkeyword

theorem keyword_spelling (h : src.keywordAt? token.start src.size = some token) :
    ∃ w, src.slice token = String.ofList (w ++ [':']) ∧ isIdentifier w = true := by
  obtain ⟨hword, hend, -, -⟩ := isWord_of_keywordAt? h
  obtain ⟨w, hslice, hident⟩ := hword.spelling
  rw [hend] at hslice
  refine ⟨w, ?_, hident⟩
  rw [slice_keyword h, String.ofList_append]
  exact congrArg (· ++ ":") hslice

/-! ## Selectors of sends -/

/-- The keywords of a run spell its selector, and they are the keywords of that selector. -/
theorem keywordRun_spelling {run : KeywordRun} (h : run ∈ src.keywordRuns src.sendRegion) :
    Selector.kind? run.selector = some .keyword ∧
      Selector.tokens run.selector = run.tokens.map src.slice := by
  obtain ⟨first, hfirst, -, rfl, -⟩ := mem_keywordRuns h
  have hwords : ∀ tokens : List Span,
      (∀ token ∈ tokens, src.keywordAt? token.start src.size = some token) →
      ∃ words, (∀ w ∈ words, isIdentifier w = true) ∧ words.length = tokens.length ∧
        tokens.map src.slice = Selector.keywordsOf words := by
    intro tokens htokens
    induction tokens with
    | nil => exact ⟨[], by simp, rfl, rfl⟩
    | cons token tokens ih =>
      rw [List.forall_mem_cons] at htokens
      obtain ⟨w, hslice, hident⟩ := keyword_spelling htokens.1
      obtain ⟨words, hidents, hlen, hmap⟩ := ih htokens.2
      refine ⟨w :: words, List.forall_mem_cons.2 ⟨hident, hidents⟩, by simpa using hlen, ?_⟩
      rw [List.map_cons, hslice, hmap]
      rfl
  obtain ⟨words, hidents, hlen, hmap⟩ := hwords (src.keywordRun src.sendRegion first).tokens
    fun token htoken => (mem_keywordRun_tokens hfirst htoken).2
  have hne : words ≠ [] := by
    rintro rfl
    simp [KeywordRun.tokens] at hlen
  have hselector : (src.keywordRun src.sendRegion first).selector =
      String.join (Selector.keywordsOf words) := by
    rw [← hmap]
    rfl
  rw [hselector, hmap]
  exact ⟨Selector.kind?_eq_keyword_iff.2
    ⟨words, hne, hidents, Selector.toList_join_keywordsOf words⟩, Selector.tokens_join hne hidents⟩

/-- A unary send is spelled by its word and a binary one by its operator. -/
theorem sendAfter?_spelling {r : Receiver} {send : Send}
    (h : src.sendAfter? r i src.size = some send) :
    send.selector = src.slice send.span ∧
      (send.kind = .unary ∧ src.IsWord send.span.start send.span.size ∧
          send.span.start + send.span.size = send.span.stop ∨
        send.kind = .binary ∧ ∃ j, src.binaryAt? j src.size = some send.span) := by
  simp only [sendAfter?] at h
  split at h
  · next word hw =>
    split at h
    · simp at h
    · obtain rfl := Option.some.inj h
      have hstart := (src.wordAt?_bounds hw).1
      have hword := isWord_of_wordAt? hw
      rw [← hstart] at hword
      exact ⟨rfl, .inl ⟨rfl, hword⟩⟩
  · obtain ⟨token, htoken, rfl⟩ := Option.map_eq_some_iff.1 h
    exact ⟨rfl, .inr ⟨rfl, _, htoken⟩⟩

/-- The send to a receiver is found where the receiver ends. -/
theorem mem_receiverSendsFrom {send : Send} (h : send ∈ src.receiverSendsFrom i l) :
    ∃ k r stop, i ≤ k ∧ src.receiverAt? k l = some (r, stop) ∧
      src.sendAfter? r stop l = some send := by
  induction hd : l - i using Nat.strongRecOn generalizing i with
  | ind d ih =>
    rcases Nat.lt_or_ge i l with hlt | hle
    · cases hr : src.receiverAt? i l with
      | none =>
        rw [receiverSendsFrom_of_none hr] at h
        obtain ⟨k, r, stop, hk, hsend⟩ := ih (l - (i + 1)) (by omega) h rfl
        exact ⟨k, r, stop, by omega, hsend⟩
      | some found =>
        obtain ⟨r, stop⟩ := found
        have hstop := src.receiverAt?_lt hr
        rw [receiverSendsFrom_of_some hlt hr, List.mem_append, Option.mem_toList] at h
        rcases h with h | h
        · exact ⟨i, r, stop, Nat.le_refl _, hr, h⟩
        · obtain ⟨k, r', stop', hk, hsend⟩ := ih (l - stop) (by omega) h rfl
          exact ⟨k, r', stop', by omega, hsend⟩
    · simp [receiverSendsFrom_of_le hle] at h

/-- The send that continues a cascade is found after a semicolon. -/
theorem mem_cascadeSendsAt {send : Send} {n : Nesting} {is : List Nat}
    (h : send ∈ src.cascadeSendsAt l n is) :
    ∃ j ∈ is, src.codeAt j ';' = true ∧ src.sendAfter? .cascade (j + 1) l = some send := by
  induction is generalizing n with
  | nil => simp [cascadeSendsAt] at h
  | cons j is ih =>
    have hrec : send ∈ src.cascadeSendsAt l (src.nest n j) is →
        ∃ k ∈ j :: is, src.codeAt k ';' = true ∧
          src.sendAfter? .cascade (k + 1) l = some send := fun hmem => by
      obtain ⟨k, hk, hsend⟩ := ih hmem
      exact ⟨k, List.mem_cons_of_mem _ hk, hsend⟩
    simp only [cascadeSendsAt] at h
    split at h
    · next hsemi =>
      rw [Bool.and_eq_true] at hsemi
      rw [List.mem_append, Option.mem_toList] at h
      rcases h with h | h
      · exact ⟨j, by simp, hsemi.1, h⟩
      · exact hrec h
    · exact hrec h

/-- Where a unary or binary send is found. -/
theorem mem_simpleSends {send : Send} (h : send ∈ src.simpleSends src.sendRegion) :
    ∃ r j, src.statementRegion.start ≤ j ∧ src.sendAfter? r j src.size = some send := by
  rw [simpleSends, List.mem_filter, List.mem_append] at h
  rcases h.1 with h | h
  · obtain ⟨k, r, stop, hk, hreceiver, hsend⟩ := mem_receiverSendsFrom h
    have hstop := src.receiverAt?_lt hreceiver
    exact ⟨r, stop, Nat.le_of_lt (Nat.lt_of_le_of_lt hk hstop), hsend⟩
  · obtain ⟨j, hj, -, hsend⟩ := mem_cascadeSendsAt h
    rw [Span.mem_offsets] at hj
    exact ⟨_, j + 1, Nat.le_succ_of_le hj.1, hsend⟩

/-- The text of an operator. -/
theorem binary_spelling (h : src.binaryAt? i l = some token) :
    ∃ w, src.slice token = String.ofList w ∧ w.length = token.size ∧
      ∀ c ∈ w, isBinaryChar c = true := by
  have hle := src.le_runEnd (fun c => c.isCode && Byte.isBinary c.byte) i l
  simp only [binaryAt?] at h
  split at h
  · obtain rfl := Option.some.inj h
    have hholds : ∀ k < src.runEnd (fun c => c.isCode && Byte.isBinary c.byte) i l - i,
        src.holds (fun c => Byte.isBinary c.byte) (i + k) = true := by
      intro k hk
      refine holds_of_imp (fun c hc => ?_)
        (holds_of_lt_runEnd (p := fun c => c.isCode && Byte.isBinary c.byte) (i := i) (l := l)
          (by omega) (by omega))
      rw [Bool.and_eq_true] at hc
      exact hc.2
    obtain ⟨w, hslice, hlen, hascii, hbytes⟩ := exists_spelling fun k hk =>
      holds_of_imp (fun _ => Cell.isAscii_of_isBinary) (hholds k hk)
    rw [Nat.add_sub_cancel' hle] at hslice
    refine ⟨w, hslice, hlen, fun c hc => ?_⟩
    obtain ⟨k, hk, rfl⟩ := List.getElem_of_mem hc
    have hbinary := hholds k (by omega)
    obtain ⟨cell, hcell, hbyte⟩ := Option.map_eq_some_iff.1 (hbytes k hk)
    rwa [holds, hcell, Option.any_some, hbyte, Byte.isBinary,
      (hascii _ (List.get_mem ..)).ofUInt8] at hbinary
  · simp at h

/-- The selector of a unary send is an identifier and that of a binary one an operator. -/
theorem simpleSend_selector {send : Send} (h : send ∈ src.simpleSends src.sendRegion) :
    send.kind = .unary ∧ isIdentifier send.selector.toList = true ∨
      send.kind = .binary ∧ ∀ c ∈ send.selector.toList, isBinaryChar c = true := by
  obtain ⟨r, j, -, hsend⟩ := mem_simpleSends h
  obtain ⟨hselector, ⟨hkind, hword, hend⟩ | ⟨hkind, k, hbinary⟩⟩ := sendAfter?_spelling hsend
  · obtain ⟨w, hslice, hident⟩ := hword.spelling
    rw [hend] at hslice
    refine .inl ⟨hkind, ?_⟩
    rw [hselector, hslice, String.toList_ofList]
    exact hident
  · obtain ⟨w, hslice, -, hw⟩ := binary_spelling hbinary
    refine .inr ⟨hkind, ?_⟩
    rw [hselector, hslice, String.toList_ofList]
    exact hw

/-- No unary or binary send has a keyword selector. -/
theorem simpleSend_ne_keyword {send : Send} (h : send ∈ src.simpleSends src.sendRegion)
    {selector : String} (hkind : Selector.kind? selector = some .keyword) :
    send.selector ≠ selector := by
  rintro rfl
  obtain ⟨words, hne, -, hflat⟩ := Selector.kind?_eq_keyword_iff.1 hkind
  have hcolon : ':' ∈ send.selector.toList := by
    rw [hflat]
    exact List.mem_of_getLast? (Selector.getLast?_withColons hne)
  rcases simpleSend_selector h with ⟨-, hident⟩ | ⟨-, hbinary⟩
  · exact not_colon_of_isIdentifier hident hcolon
  · exact absurd (hbinary _ hcolon) (by decide)

theorem mem_sends {send : Send} :
    send ∈ src.sends ↔
      send ∈ src.keywordSends src.sendRegion ∨ send ∈ src.simpleSends src.sendRegion := by
  rw [sends, (List.mergeSort_perm ..).mem_iff, List.mem_append]

end Source

end MethodBrowser
