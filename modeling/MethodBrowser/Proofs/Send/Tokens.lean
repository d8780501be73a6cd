import MethodBrowser.Proofs.Send.KeywordPartition
import MethodBrowser.Proofs.Send.Recognition

/-!
# The tokens of sends

A unary or binary send has one token, and a keyword send has its keywords. The sends of a method are
listed strictly in the order in which they start, no two of them share a byte of a token, and all
their tokens are code, after the preamble and outside all literal arrays and block temporaries
(`Source.sends_apart`). Nothing is asked of the text.

**Where tokens start.** Sends of different kinds are found by scans that know nothing of each other.
But no token starts inside another one (`Source.Token.stop_le`). Inside a word or a keyword no word
starts and no operator stands. Inside an operator no word starts; and where an operator of a send
starts, no operator character stands before it, because no receiver ends with one.

**What starts at one byte.** Where a token starts tells the kind of its send
(`Source.Token.kind_eq`): the word of a unary send is not followed by a colon. So tokens that start
at the same byte belong to one send.
-/

namespace MethodBrowser

/-- Code that may stand in an operator. -/
def Cell.isOperator (c : Cell) : Bool := c.isCode && Byte.isBinary c.byte

namespace Source

variable {src : Source} {i j k : Nat} {s t : Span} {kind kind' : SelectorKind}

/-! ## Operator characters -/

theorem not_isOperator_of_isIdent (h : src.byteIs Byte.isIdent i = true) :
    src.holds Cell.isOperator i = false := by
  refine holds_eq_of (fun c hc => ?_) h
  by_contra hoperator
  rw [Bool.not_eq_false, Cell.isOperator, Bool.and_eq_true] at hoperator
  have hnot := isIdentRest_of_isBinaryChar hoperator.2
  rw [Byte.isIdent, hnot] at hc
  exact Bool.false_ne_true hc

theorem not_isOperator_of_codeAt {x : Char} (hx : Byte.isBinary x.toUInt8 = false)
    (h : src.codeAt i x = true) : src.holds Cell.isOperator i = false := by
  refine holds_eq_of (fun c hc => ?_) h
  rw [Cell.isCodeChar, Bool.and_eq_true, beq_iff_eq] at hc
  rw [Cell.isOperator, hc.2, hx, Bool.and_false]

theorem not_isOperator_of_isWordChar (h : src.holds Cell.isWordChar i = true) :
    src.holds Cell.isOperator i = false :=
  not_isOperator_of_isIdent (holds_of_imp (fun _ => Cell.isIdent_of_isWordChar) h)

theorem isOperator_of_binaryAt? (h : src.binaryAt? i src.size = some t) :
    ∀ k, t.start ≤ k → k < t.stop → src.holds Cell.isOperator k = true := by
  simp only [binaryAt?] at h
  split at h
  · obtain rfl := Option.some.inj h
    exact fun k hk hk' => holds_of_lt_runEnd hk hk'
  · simp at h

/-- No receiver ends with an operator character, and no semicolon is one. -/
theorem ReceiverEnds.not_isOperator {region : Span} {p : Nat} {r : Receiver}
    (h : src.ReceiverEnds region p r) : src.holds Cell.isOperator (p - 1) = false := by
  cases h with
  | word _ hw hstop =>
    have hbounds := src.wordAt?_bounds hw
    exact not_isOperator_of_isWordChar (isWordChar_of_wordAt? hw (by omega) (by omega))
  | number hnumber =>
    exact not_isOperator_of_isIdent (isIdent_of_isDigit (isDigit_of_numberAt? hnumber))
  | closer hcloser =>
    simp only [isCloser, Bool.or_eq_true] at hcloser
    rcases hcloser with (hcode | hcode) | hcode
    · exact not_isOperator_of_codeAt (by decide) hcode
    · exact not_isOperator_of_codeAt (by decide) hcode
    · exact not_isOperator_of_codeAt (by decide) hcode
  | cascade hsemi _ => exact not_isOperator_of_codeAt (by decide) hsemi

/-! ## Tokens -/

/-- A token of a send of the given kind stands at a span. -/
inductive Token (src : Source) (t : Span) : SelectorKind → Prop
  | unary : src.wordAt? t.start src.size = some t → src.codeAt t.stop ':' = false →
      Token src t .unary
  | binary : src.binaryAt? t.start src.size = some t →
      src.holds Cell.isOperator (t.start - 1) = false → Token src t .binary
  | keyword : src.keywordAt? t.start src.size = some t → Token src t .keyword

/-- The kind of send that a token that starts at `i` belongs to. -/
def kindAt (src : Source) (i : Nat) : SelectorKind :=
  match src.wordAt? i src.size with
  | none => .binary
  | some word => if src.codeAt word.stop ':' then .keyword else .unary

namespace Token

theorem lt (h : src.Token t kind) : t.start < t.stop := by
  cases h with
  | unary hw _ => exact (src.wordAt?_bounds hw).2
  | binary hb _ => exact (binary_chars hb).1
  | keyword hk => exact (src.keywordAt?_bounds hk).2

/-- The bytes of a token are code. -/
theorem isCode (h : src.Token t kind) (hk : t.start ≤ k) (hk' : k < t.stop) :
    src.isCode k = true := by
  have hword : src.holds Cell.isWordChar k = true → src.isCode k = true :=
    holds_of_imp fun _ hc => (Bool.and_eq_true_iff.1 hc).1
  cases h with
  | unary hw _ => exact hword (isWordChar_of_wordAt? hw hk hk')
  | binary hb _ =>
    exact holds_of_imp (fun _ hc => (Bool.and_eq_true_iff.1 hc).1)
      (isOperator_of_binaryAt? hb k hk hk')
  | keyword hkeyword =>
    rcases keywordAt?_chars hkeyword hk hk' with hchar | hcolon
    · exact hword hchar
    · exact holds_of_imp (fun _ hc => (Bool.and_eq_true_iff.1 hc).1) hcolon

/-- No word starts inside a token. -/
theorem wordAt?_inside (h : src.Token t kind) (hj : t.start < j) (hj' : j < t.stop) :
    src.wordAt? j src.size = none := by
  cases h with
  | unary hw _ => exact (inner_of_wordAt? hw hj hj').wordAt?
  | binary hb _ =>
    have hoperator := isOperator_of_binaryAt? hb j (Nat.le_of_lt hj) hj'
    refine Option.eq_none_iff_forall_ne_some.2 fun word hw => ?_
    have hletter := (wordAt?_eq_some hw).2.1
    rw [not_isOperator_of_isWordChar
      (holds_of_imp (fun _ => Cell.isWordChar_of_isLetter) hletter)] at hoperator
    exact Bool.false_ne_true hoperator
  | keyword hk =>
    obtain ⟨word, hw, -, hcolon, heq⟩ := keywordAt?_eq_some hk
    have hstop : t.stop = word.stop + 1 := congrArg Span.stop heq
    rcases Nat.lt_or_ge j word.stop with hin | hge
    · exact (inner_of_wordAt? hw hj hin).wordAt?
    · obtain rfl : j = word.stop := by omega
      refine Option.eq_none_iff_forall_ne_some.2 fun other hother => ?_
      have hletter := (wordAt?_eq_some hother).2.1
      have hchar := holds_of_imp (fun _ => Cell.isWordChar_of_isLetter) hletter
      rw [codeAt_of_isWordChar (by decide) hchar] at hcolon
      exact Bool.false_ne_true hcolon

/-- No operator character stands in a word or a keyword. -/
theorem not_isOperator (h : src.Token t kind) (hkind : kind ≠ .binary) (hk : t.start ≤ k)
    (hk' : k < t.stop) : src.holds Cell.isOperator k = false := by
  cases h with
  | unary hw _ => exact not_isOperator_of_isWordChar (isWordChar_of_wordAt? hw hk hk')
  | binary => exact absurd rfl hkind
  | keyword hkeyword =>
    rcases keywordAt?_chars hkeyword hk hk' with hchar | hcolon
    · exact not_isOperator_of_isWordChar hchar
    · exact not_isOperator_of_codeAt (by decide) hcolon

/-- No operator of a send starts inside a token. -/
theorem not_binary_inside (h : src.Token s kind) (h' : src.Token t .binary)
    (hlt : s.start < t.start) : s.stop ≤ t.start := by
  by_contra hin
  obtain - | ⟨hb, hbefore⟩ | - := h'
  have hfirst := isOperator_of_binaryAt? hb t.start le_rfl (binary_chars hb).1
  by_cases hkind : kind = .binary
  · subst hkind
    obtain - | ⟨hb', -⟩ | - := h
    rw [isOperator_of_binaryAt? hb' (t.start - 1) (by omega) (by omega)] at hbefore
    exact Bool.false_ne_true hbefore.symm
  · rw [h.not_isOperator hkind (by omega) (by omega)] at hfirst
    exact Bool.false_ne_true hfirst

/-- A token ends before the next one starts. -/
theorem stop_le (h : src.Token s kind) (h' : src.Token t kind') (hlt : s.start < t.start) :
    s.stop ≤ t.start := by
  cases hkind : kind' with
  | binary => exact h.not_binary_inside (hkind ▸ h') hlt
  | unary =>
    by_contra hin
    obtain ⟨hw, -⟩ | - | - := hkind ▸ h'
    simp [h.wordAt?_inside hlt (by omega)] at hw
  | keyword =>
    by_contra hin
    obtain - | - | hk := hkind ▸ h'
    obtain ⟨word, hw, -⟩ := keywordAt?_eq_some hk
    simp [h.wordAt?_inside hlt (by omega)] at hw

/-- The kind is told by where the token starts. -/
theorem kind_eq (h : src.Token t kind) : kind = src.kindAt t.start := by
  cases h with
  | unary hw hcolon => simp [kindAt, hw, hcolon]
  | binary hb _ => simp [kindAt, wordAt?_of_binaryAt? hb]
  | keyword hk =>
    obtain ⟨word, hw, -, hcolon, -⟩ := keywordAt?_eq_some hk
    simp [kindAt, hw, hcolon]

end Token

/-! ## The tokens of a send -/

/-- The tokens of a send: its keywords, or the one token of a unary or binary send. -/
def tokensOf (src : Source) (send : Send) : List Span :=
  match send.kind, src.keywordAt? send.span.start src.size with
  | .keyword, some first => (src.keywordRun src.sendRegion first).tokens
  | _, _ => [send.span]

theorem tokensOf_simpleSend {send : Send} (h : send.kind ≠ .keyword) :
    src.tokensOf send = [send.span] := by
  unfold tokensOf
  split
  · next hkind _ => exact absurd hkind h
  · rfl

theorem tokensOf_toSend {run : KeywordRun} (h : run ∈ src.keywordRuns src.sendRegion) :
    src.tokensOf run.toSend = run.tokens := by
  obtain ⟨first, hfirst, -, rfl, -⟩ := mem_keywordRuns h
  have hstart : (src.keywordRun src.sendRegion first).toSend.span.start = first.start :=
    (keywordRun_span_bounds hfirst).1
  simp only [tokensOf, hstart]
  rw [show src.keywordAt? first.start src.size = some first from hfirst]
  rfl

/-- A send of a method is a run of keywords or is recognised by what stands before it. -/
theorem mem_sends_cases {send : Send} (h : send ∈ src.sends) :
    (∃ run ∈ src.keywordRuns src.sendRegion, send = run.toSend) ∨
      send ∈ src.simpleSends src.sendRegion ∧ src.Recognized src.sendRegion send := by
  rcases mem_sends.1 h with hmem | hmem
  · rw [keywordSends_eq] at hmem
    obtain ⟨run, hrun, rfl⟩ := List.mem_map.1 hmem
    exact .inl ⟨run, hrun, rfl⟩
  · exact .inr ⟨hmem, (mem_simpleSends_iff src.not_isDigit_before_region).1 hmem⟩

/-- The tokens of a send are tokens, and its region admits them. -/
theorem token_of_mem_tokensOf {send : Send} (h : send ∈ src.sends) (ht : t ∈ src.tokensOf send) :
    src.Token t send.kind ∧ src.sendRegion.admits t = true := by
  rcases mem_sends_cases h with ⟨run, hrun, rfl⟩ | ⟨-, hrecognized⟩
  · rw [tokensOf_toSend hrun] at ht
    obtain ⟨first, hfirst, -, rfl, hadmits⟩ := mem_keywordRuns hrun
    exact ⟨.keyword (mem_keywordRun_tokens hfirst ht).2, hadmits t ht⟩
  · rw [tokensOf_simpleSend hrecognized.kind_ne_keyword, List.mem_singleton] at ht
    subst ht
    refine ⟨?_, hrecognized.admitted⟩
    have htoken : src.SelectorAt src.size send.span send.kind := hrecognized.token
    generalize hkind : send.kind = kind at htoken
    cases htoken with
    | unary hw hcolon => exact .unary hw hcolon
    | binary hb =>
      refine .binary hb (Bool.eq_false_iff.2 fun hoperator => ?_)
      -- The operator before it would be the end of its receiver.
      have hgap : src.holds Cell.isGap (send.span.start - 1) = false := by
        refine holds_eq_of (fun c hc => ?_) hoperator
        by_contra hblank
        rw [Bool.not_eq_false, Cell.isGap, Bool.and_eq_true] at hblank
        rw [Cell.isOperator, isBinary_of_isBlank hblank.2, Bool.and_false] at hc
        exact Bool.false_ne_true hc
      have hends := hrecognized.receiver.not_isOperator
      rw [skipGapBack, runStart_of_not_holds hgap, hoperator] at hends
      exact Bool.false_ne_true hends.symm

/-! ## Sends are apart -/

/-- Sends that share a token are one. -/
theorem send_eq_of_token {a b : Send} (ha : a ∈ src.sends) (hb : b ∈ src.sends)
    (hs : s ∈ src.tokensOf a) (ht : t ∈ src.tokensOf b) (heq : s.start = t.start) : a = b := by
  have hkind : a.kind = b.kind := by
    rw [(token_of_mem_tokensOf ha hs).1.kind_eq, (token_of_mem_tokensOf hb ht).1.kind_eq, heq]
  rcases mem_sends_cases ha with ⟨run, hrun, rfl⟩ | ⟨ha', hrecognized⟩
  · rcases mem_sends_cases hb with ⟨run', hrun', rfl⟩ | ⟨-, hrecognized'⟩
    · rw [tokensOf_toSend hrun] at hs
      rw [tokensOf_toSend hrun'] at ht
      exact congrArg _ (eq_of_start_eq hrun hrun' hs ht heq)
    · exact absurd hkind.symm hrecognized'.kind_ne_keyword
  · have hkinds := hrecognized.kind_ne_keyword
    rw [tokensOf_simpleSend hkinds, List.mem_singleton] at hs
    rw [tokensOf_simpleSend (hkind ▸ hkinds), List.mem_singleton] at ht
    subst hs ht
    exact send_eq_of_start_eq ha hb heq

/-- The sends of a method are listed once. -/
theorem pairwise_ne_sends (src : Source) :
    src.sends.Pairwise fun a b => a.span.start ≠ b.span.start := by
  have hperm : src.sends.Perm
      (src.keywordSends src.sendRegion ++ src.simpleSends src.sendRegion) :=
    List.mergeSort_perm ..
  rw [hperm.pairwise_iff fun h => h.symm, List.pairwise_append]
  refine ⟨?_, src.pairwise_simpleSends _, fun a ha b hb heq => ?_⟩
  · rw [keywordSends_eq, List.pairwise_map]
    refine (src.keywordRuns_disjoint src.sendRegion).imp_of_mem fun {run run'} h h' hne => ?_
    obtain ⟨first, hfirst, -, rfl, -⟩ := mem_keywordRuns h
    obtain ⟨first', hfirst', -, rfl, -⟩ := mem_keywordRuns h'
    intro heq
    refine hne first List.mem_cons_self first' List.mem_cons_self ?_
    exact (keywordRun_span_bounds hfirst).1.symm.trans
      (heq.trans (keywordRun_span_bounds hfirst').1)
  · have hsame := send_eq_of_start_eq (mem_sends.2 (.inl ha)) (mem_sends.2 (.inr hb)) heq
    subst hsame
    have hrecognized := (mem_simpleSends_iff src.not_isDigit_before_region).1 hb
    exact hrecognized.kind_ne_keyword (kind_of_mem_keywordSends ha)

theorem pairwise_lt_sends (src : Source) :
    src.sends.Pairwise fun a b => a.span.start < b.span.start :=
  ((pairwise_sends src).and src.pairwise_ne_sends).imp fun h => Nat.lt_of_le_of_ne h.1 h.2

/-- Tokens of different sends share no byte. -/
theorem overlaps_tokensOf {a b : Send} (ha : a ∈ src.sends) (hb : b ∈ src.sends) (hne : a ≠ b)
    (hs : s ∈ src.tokensOf a) (ht : t ∈ src.tokensOf b) : s.overlaps t = false := by
  have htoken := (token_of_mem_tokensOf ha hs).1
  have htoken' := (token_of_mem_tokensOf hb ht).1
  rcases Nat.lt_trichotomy s.start t.start with hlt | heq | hgt
  · exact Span.overlaps_of_le (htoken.stop_le htoken' hlt)
  · exact absurd (send_eq_of_token ha hb hs ht heq) hne
  · exact Span.overlaps_of_ge (htoken'.stop_le htoken hgt)

/-! ## Selectors -/

/-- An operator that is read is a binary selector. -/
theorem kind?_of_binaryAt? {l : Nat} (h : src.binaryAt? i l = some t) :
    Selector.kind? (src.slice t) = some .binary := by
  obtain ⟨w, hslice, hlen, hchars⟩ := binary_spelling h
  have hlt := (binary_chars h).1
  have hsize : t.size ≤ maxBinarySize := by
    simp only [binaryAt?] at h
    split at h
    · next hif =>
      obtain rfl := Option.some.inj h
      exact Nat.le_of_ble_eq_true (Bool.and_eq_true_iff.1 hif).2
    · simp at h
  rw [Selector.kind?_eq_binary_iff, hslice, String.toList_ofList]
  refine ⟨fun hnil => ?_, hlen ▸ hsize, hchars⟩
  rw [hnil, List.length_nil, Span.size] at hlen
  omega

/-- The tokens of a send spell its selector. -/
theorem tokensOf_spelling {send : Send} (h : send ∈ src.sends) :
    Selector.kind? send.selector = some send.kind ∧
      Selector.tokens send.selector = (src.tokensOf send).map src.slice ∧
      send.tokens = (src.tokensOf send).length := by
  rcases mem_sends_cases h with ⟨run, hrun, rfl⟩ | ⟨hmem, hrecognized⟩
  · rw [tokensOf_toSend hrun]
    exact ⟨(keywordRun_spelling hrun).1, (keywordRun_spelling hrun).2, rfl⟩
  · rw [tokensOf_simpleSend hrecognized.kind_ne_keyword]
    have hkind : Selector.kind? send.selector = some send.kind := by
      have htoken : src.SelectorAt src.size send.span send.kind := hrecognized.token
      rw [hrecognized.selector]
      generalize hkind : send.kind = kind at htoken
      cases htoken with
      | unary hw _ =>
        rcases simpleSend_selector hmem with ⟨-, hident⟩ | ⟨hbinary, -⟩
        · rw [← hrecognized.selector]
          exact Selector.kind?_eq_unary_iff.2 hident
        · rw [hkind] at hbinary
          exact SelectorKind.noConfusion hbinary
      | binary hb => exact kind?_of_binaryAt? hb
    refine ⟨hkind, ?_, hrecognized.tokens⟩
    have hne := hrecognized.kind_ne_keyword
    rw [List.map_singleton, ← hrecognized.selector]
    unfold Selector.tokens
    split
    · next hkeyword =>
      rw [hkind] at hkeyword
      exact absurd (Option.some.inj hkeyword) hne
    · rfl

/-! ## The theorem -/

/-- The sends of any text are listed strictly in the order in which they start, and different ones
share no byte of a token. Each selector is well formed for its kind and has as many tokens as the
send counts, one for a unary or binary send. Every byte of a token is code, after the preamble and
outside all literal arrays and block temporaries. -/
theorem sends_apart (text : String) :
    let src := Source.ofText text
    src.sends.Pairwise (fun a b => a.span.start < b.span.start ∧
      ∀ s ∈ src.tokensOf a, ∀ t ∈ src.tokensOf b, s.overlaps t = false) ∧
    ∀ send ∈ src.sends,
      Selector.kind? send.selector = some send.kind ∧
      Selector.tokens send.selector = (src.tokensOf send).map src.slice ∧
      send.tokens = (Selector.tokens send.selector).length ∧
      (send.kind ≠ .keyword → send.tokens = 1) ∧
      ∀ token ∈ src.tokensOf send, token.start < token.stop ∧ ∀ k ∈ token.offsets,
        src.isCode k = true ∧ (src.preamble src.bodyStart).stop ≤ k ∧
        (∀ array ∈ src.literalArrays src.statementRegion, k ∉ array.offsets) ∧
        ∀ block ∈ src.blockTemporaries src.statementRegion, k ∉ block.offsets := by
  intro src
  refine ⟨?_, fun send hsend => ?_⟩
  · refine src.pairwise_lt_sends.imp_of_mem fun {a b} ha hb hlt => ⟨hlt, fun s hs t ht => ?_⟩
    have hne : a ≠ b := by
      rintro rfl
      exact Nat.lt_irrefl _ hlt
    exact overlaps_tokensOf ha hb hne hs ht
  · obtain ⟨hkind, htokens, hcount⟩ := tokensOf_spelling hsend
    refine ⟨hkind, htokens, by rw [htokens, List.length_map, hcount], fun hne => ?_,
      fun token htoken => ?_⟩
    · rw [hcount, tokensOf_simpleSend hne]
      rfl
    · obtain ⟨htoken, hadmits⟩ := token_of_mem_tokensOf hsend htoken
      refine ⟨htoken.lt, fun k hk => ?_⟩
      rw [Span.mem_offsets] at hk
      rw [SendRegion.admits, Bool.and_eq_true, Span.contains_iff, Bool.not_eq_true',
        List.any_eq_false] at hadmits
      have hout : ∀ sp ∈ src.sendRegion.excluded, k ∉ sp.offsets := by
        intro sp hsp hin
        rw [Span.mem_offsets] at hin
        refine hadmits.2 sp hsp (Span.overlaps_iff.2 ?_)
        omega
      exact ⟨htoken.isCode hk.1 hk.2, Nat.le_trans hadmits.1.1 hk.1,
        fun array harray => hout array (List.mem_append_left _ harray),
        fun block hblock => hout block (List.mem_append_right _ hblock)⟩

end Source

end MethodBrowser
