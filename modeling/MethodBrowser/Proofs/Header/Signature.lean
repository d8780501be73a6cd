import MethodBrowser.Proofs.Header.Keywords

/-!
# Reading and rendering signatures

A line whose signature can be read is a signature and a rest that cannot go on with it
(`Header.parse?_eq_some`). A rendered signature is read back, whatever such rest follows it
(`Header.parse?_render`). So a signature can be exchanged for another one and the rest of the line
left alone.
-/

namespace MethodBrowser

namespace Header

/-- The selector has the kind, the tokens and as many arguments as the header says, and the
arguments are identifiers. -/
structure WellFormed (h : Header) : Prop where
  kind : Selector.kind? h.selector = some h.kind
  parts : h.parts = Selector.tokens h.selector
  arity : h.arguments.length = Selector.arity h.selector
  arguments : ∀ a ∈ h.arguments, MethodBrowser.isIdentifier a.toList = true

/-- What may follow a signature on its line. -/
def Ends : SelectorKind → List Char → Prop
  | .unary, rest =>
    Stops isIdentRest rest ∧ (rest.head? ≠ some ':' ∨ rest.tail.head? = some '=')
  | .binary, rest => Stops isIdentRest rest
  | .keyword, rest => EndsKeyword rest

theorem ends_nil (kind : SelectorKind) : Ends kind [] := by
  cases kind with
  | unary => exact ⟨stops_nil _, by simp⟩
  | binary => exact stops_nil _
  | keyword => exact endsKeyword_nil

/-- What may follow a keyword signature may follow a unary one, too. -/
theorem EndsKeyword.unary {rest : List Char} (h : EndsKeyword rest) : Ends .unary rest :=
  ⟨h.stops, .inl h.noColon⟩

theorem isSignatureChar_of_isBinaryChar {c : Char} (h : isBinaryChar c = true) :
    isSignatureChar c = true := by
  simp [isSignatureChar, h]

/-- Keywords and as many arguments make a signature. -/
theorem wellFormed_keyword {words : List (List Char)} {arguments : List String}
    (signatureEnd : Nat) (hne : words ≠ [])
    (hwords : ∀ w ∈ words, MethodBrowser.isIdentifier w = true)
    (hlen : arguments.length = words.length)
    (harguments : ∀ a ∈ arguments, MethodBrowser.isIdentifier a.toList = true) :
    WellFormed ⟨String.join (Selector.keywordsOf words), .keyword, Selector.keywordsOf words,
      arguments, signatureEnd⟩ := by
  have hkind : Selector.kind? (String.join (Selector.keywordsOf words)) = some .keyword :=
    Selector.kind?_eq_keyword_iff.2 ⟨words, hne, hwords, Selector.toList_join_keywordsOf words⟩
  have htokens := Selector.tokens_join hne hwords
  refine ⟨hkind, htokens.symm, ?_, harguments⟩
  have hparts : Selector.parts (String.join (Selector.keywordsOf words)) =
      Selector.keywordsOf words := by
    simpa [Selector.tokens, hkind] using htokens
  simp only [Selector.arity, hkind, hparts, hlen]
  simp [Selector.keywordsOf, Selector.withColons]

/-! ## Reading -/

/-- The line is a signature and a rest that cannot go on with it. -/
structure Reading (line : List Char) (h : Header) (sig rest : List Char) : Prop where
  line_eq : line = sig ++ rest
  signatureEnd : h.signatureEnd = sig.length
  ne_nil : sig ≠ []
  chars : ∀ c ∈ sig, isSignatureChar c = true
  wellFormed : h.WellFormed
  ends : Ends h.kind rest

theorem reading_unary {b w rest : List Char} (hb : ∀ c ∈ b, isLineBlank c = true)
    (hw : MethodBrowser.isIdentifier w = true) (hrest : Ends .unary rest) :
    Reading (b ++ (w ++ rest))
      ⟨String.ofList w, .unary, [String.ofList w], [], (b ++ w).length⟩ (b ++ w) rest := by
  have hkind : Selector.kind? (String.ofList w) = some .unary := by
    rw [Selector.kind?_eq_unary_iff, String.toList_ofList]
    exact hw
  refine ⟨by simp, rfl, ?_, fun c hc => ?_, ⟨hkind, ?_, ?_, by simp⟩, hrest⟩
  · cases w with
    | nil => simp [MethodBrowser.isIdentifier] at hw
    | cons => simp
  · rcases List.mem_append.1 hc with hc | hc
    · exact isSignatureChar_of_isLineBlank (hb c hc)
    · exact isSignatureChar_of_isIdentifier hw c hc
  · simp [Selector.tokens, hkind]
  · simp [Selector.arity, hkind]

theorem reading_binary {b op b' a rest : List Char} (hb : ∀ c ∈ b, isLineBlank c = true)
    (hop : ∀ c ∈ op, isBinaryChar c = true) (hne : op ≠ [])
    (hlen : op.length ≤ Source.maxBinarySize) (hb' : ∀ c ∈ b', isLineBlank c = true)
    (ha : MethodBrowser.isIdentifier a = true) (hrest : Stops isIdentRest rest) :
    Reading (b ++ (op ++ (b' ++ (a ++ rest))))
      ⟨String.ofList op, .binary, [String.ofList op], [String.ofList a],
        (b ++ op ++ b' ++ a).length⟩ (b ++ op ++ b' ++ a) rest := by
  have hkind : Selector.kind? (String.ofList op) = some .binary := by
    rw [Selector.kind?_eq_binary_iff, String.toList_ofList]
    exact ⟨hne, hlen, hop⟩
  refine ⟨by simp, rfl, by simp [hne], fun c hc => ?_, ⟨hkind, ?_, ?_, by simpa using ha⟩, hrest⟩
  · simp only [List.mem_append] at hc
    rcases hc with ((hc | hc) | hc) | hc
    · exact isSignatureChar_of_isLineBlank (hb c hc)
    · exact isSignatureChar_of_isBinaryChar (hop c hc)
    · exact isSignatureChar_of_isLineBlank (hb' c hc)
    · exact isSignatureChar_of_isIdentifier ha c hc
  · simp [Selector.tokens, hkind]
  · simp [Selector.arity, hkind]

/-- The header of some keywords and arguments. -/
def ofPairs (found : List (List Char × List Char)) (signatureEnd : Nat) : Header :=
  ⟨String.join (found.map fun p => String.ofList (p.1 ++ [':'])), .keyword,
    found.map fun p => String.ofList (p.1 ++ [':']), found.map fun p => String.ofList p.2,
    signatureEnd⟩

theorem ofPairs_eq (found : List (List Char × List Char)) (n : Nat) :
    ofPairs found n =
      ⟨String.join (Selector.keywordsOf (found.map Prod.fst)), .keyword,
        Selector.keywordsOf (found.map Prod.fst), found.map fun p => String.ofList p.2, n⟩ := by
  have hparts : (found.map fun p => String.ofList (p.1 ++ [':'])) =
      Selector.keywordsOf (found.map Prod.fst) := by
    simp [Selector.keywordsOf, Selector.withColons]
  rw [ofPairs, hparts]

theorem reading_keyword {b cs rest : List Char} {found : List (List Char × List Char)}
    (hb : ∀ c ∈ b, isLineBlank c = true) (h : Keywords cs found rest) :
    ∃ sig, Reading (b ++ cs) (ofPairs found ((b ++ cs).length - rest.length)) sig rest := by
  obtain ⟨sig, rfl, hsig, -⟩ := h.exists_signature
  refine ⟨b ++ sig, by simp, ?_, ?_, fun c hc => ?_, ?_, h.ends⟩
  · simp only [ofPairs, List.length_append]
    omega
  · intro hnil
    obtain ⟨rfl, rfl⟩ := List.append_eq_nil_iff.1 hnil
    have hhead := head?_isIdentRest h.head?
    rw [List.nil_append, h.ends.stops] at hhead
    simp at hhead
  · rcases List.mem_append.1 hc with hc | hc
    · exact isSignatureChar_of_isLineBlank (hb c hc)
    · exact hsig c hc
  · simp only [ofPairs_eq]
    refine wellFormed_keyword _ (by simpa using h.ne_nil) (fun w hw => ?_) (by simp) fun a ha => ?_
    · obtain ⟨p, hp, rfl⟩ := List.mem_map.1 hw
      exact (h.isIdentifier p hp).1
    · obtain ⟨p, hp, rfl⟩ := List.mem_map.1 ha
      rw [String.toList_ofList]
      exact (h.isIdentifier p hp).2

theorem Keywords.dropWhile {cs rest : List Char} {found : List (List Char × List Char)}
    (h : Keywords cs found rest) :
    ∃ tail, cs.dropWhile isIdentRest = ':' :: tail ∧ tail.head? ≠ some '=' := by
  have hnext : ∀ {b a tail : List Char}, (∀ c ∈ b, isLineBlank c = true) →
      MethodBrowser.isIdentifier a = true → (b ++ (a ++ tail)).head? ≠ some '=' := by
    intro b a tail hb ha heq
    cases b with
    | nil =>
      have hhead := head?_isIdentStart ha tail
      rw [List.nil_append] at heq
      simp [heq, isIdentStart] at hhead
    | cons c b =>
      obtain rfl : c = '=' := by simpa using heq
      exact absurd (hb '=' (by simp)) (by decide)
  cases h with
  | last hw hb ha _ =>
    exact ⟨_, dropWhile_of_stops (isIdentRest_of_isIdentifier hw) (stops_cons (by decide)),
      hnext hb ha⟩
  | more hw hb ha _ _ _ =>
    exact ⟨_, dropWhile_of_stops (isIdentRest_of_isIdentifier hw) (stops_cons (by decide)),
      hnext hb ha⟩

/-- Reads a signature that starts with an operator character, in a line of `n` characters. -/
def readBinary (n : Nat) (cs : List Char) : Option Header :=
  let operator := (cs.takeWhile isBinaryChar).take Source.maxBinarySize
  let rest := cs.drop operator.length
  let argument := (skipBlanks rest).takeWhile isIdentRest
  let rest' := (skipBlanks rest).dropWhile isIdentRest
  if !MethodBrowser.isIdentifier argument || rest.head?.any isBinaryChar then none
  else
    some ⟨String.ofList operator, .binary, [String.ofList operator], [String.ofList argument],
      n - rest'.length⟩

/-- Reads a signature that starts with a word. -/
def readWord (n : Nat) (cs : List Char) : Option Header :=
  let word := cs.takeWhile isIdentRest
  let rest := cs.dropWhile isIdentRest
  if rest.head? != some ':' || rest.tail.head? == some '=' then
    some ⟨String.ofList word, .unary, [String.ofList word], [], n - rest.length⟩
  else
    match pairs cs with
    | ([], _) => none
    | (found, rest') => some (ofPairs found (n - rest'.length))

theorem parse?_eq {line : String} {c : Char} {cs : List Char}
    (h : skipBlanks line.toList = c :: cs) :
    parse? line =
      if isBinaryChar c then readBinary line.toList.length (c :: cs)
      else if isIdentStart c then readWord line.toList.length (c :: cs)
      else none := by
  simp only [parse?]
  generalize skipBlanks line.toList = all at h
  subst h
  rfl

/-- The operator and the argument of a binary signature. -/
theorem readBinary_eq_some {n : Nat} {c : Char} {cs : List Char} {h : Header}
    (hc : isBinaryChar c = true) (hp : readBinary n (c :: cs) = some h) :
    ∃ op b a rest, c :: cs = op ++ (b ++ (a ++ rest)) ∧ op ≠ [] ∧
      op.length ≤ Source.maxBinarySize ∧ (∀ c ∈ op, isBinaryChar c = true) ∧
      (∀ c ∈ b, isLineBlank c = true) ∧ MethodBrowser.isIdentifier a = true ∧
      Stops isIdentRest rest ∧
      h = ⟨String.ofList op, .binary, [String.ofList op], [String.ofList a], n - rest.length⟩ := by
  obtain ⟨op, rest₀, hcs, hop, -, htake, -⟩ := exists_run isBinaryChar (c :: cs)
  have hne : op ≠ [] := by
    rintro rfl
    rw [List.takeWhile_cons_of_pos hc] at htake
    simp at htake
  simp only [readBinary, htake] at hp
  split at hp
  · simp at hp
  · next hif =>
    simp only [Bool.or_eq_true, Bool.not_eq_true', not_or, Bool.not_eq_false,
      Bool.not_eq_true] at hif
    obtain ⟨hident, hnext⟩ := hif
    -- A longer operator would leave an operator character behind.
    have hlen : op.length ≤ Source.maxBinarySize := by
      by_contra hlong
      obtain ⟨d, ds, hdrop⟩ := List.exists_cons_of_ne_nil
        (show op.drop Source.maxBinarySize ≠ [] by simpa using hlong)
      have hd : d ∈ op := List.mem_of_mem_drop (hdrop ▸ List.mem_cons_self)
      rw [List.length_take, Nat.min_eq_left (by omega), hcs,
        List.drop_append_of_le_length (by omega), hdrop] at hnext
      simp [hop d hd] at hnext
    obtain ⟨b, rest₁, rfl, hb, -, -, hskip⟩ := exists_run isLineBlank rest₀
    obtain ⟨a, rest, rfl, -, hrest, htake', hdrop'⟩ := exists_run isIdentRest rest₁
    simp only [List.take_of_length_le hlen, hcs, List.drop_left, skipBlanks, hskip, htake',
      hdrop'] at hp hident
    exact ⟨op, b, a, rest, hcs, hne, hlen, hop, hb, hident, hrest, (Option.some.inj hp).symm⟩

/-- The word of a unary signature, or the keywords and arguments of a keyword signature. -/
theorem readWord_eq_some {n : Nat} {cs : List Char} {h : Header}
    (hhead : cs.head?.any isIdentStart = true) (hp : readWord n cs = some h) :
    (∃ w rest, cs = w ++ rest ∧ MethodBrowser.isIdentifier w = true ∧ Ends .unary rest ∧
      h = ⟨String.ofList w, .unary, [String.ofList w], [], n - rest.length⟩) ∨
    ∃ found rest, Keywords cs found rest ∧ h = ofPairs found (n - rest.length) := by
  obtain ⟨w, rest, hcs, hw, hstops, htake, hdrop⟩ := exists_run isIdentRest cs
  have hne : w ≠ [] := by
    rintro rfl
    rw [hcs, List.nil_append] at hhead
    rw [Stops, head?_isIdentRest hhead] at hstops
    simp at hstops
  simp only [readWord, htake, hdrop] at hp
  split at hp
  · next hif =>
    exact .inl ⟨w, rest, hcs, isIdentifier_of_head? (hcs ▸ hhead) hw hne,
      ⟨hstops, by simpa using hif⟩, (Option.some.inj hp).symm⟩
  · cases hpairs : pairs cs with
    | mk found rest' =>
      rw [hpairs] at hp
      cases found with
      | nil => simp at hp
      | cons p found =>
        exact .inr ⟨p :: found, rest', keywords_of_pairs hhead hpairs (by simp),
          (Option.some.inj hp).symm⟩

/-- What a signature is read from: white space and an operator with its argument, a word, or keywords
with their arguments. -/
theorem parse?_cases {line : String} {h : Header} (hp : parse? line = some h) :
    ∃ b cs, line.toList = b ++ cs ∧ (∀ c ∈ b, isLineBlank c = true) ∧
      ((∃ op b' a rest, cs = op ++ (b' ++ (a ++ rest)) ∧ op ≠ [] ∧
          op.length ≤ Source.maxBinarySize ∧ (∀ c ∈ op, isBinaryChar c = true) ∧
          (∀ c ∈ b', isLineBlank c = true) ∧ MethodBrowser.isIdentifier a = true ∧
          Stops isIdentRest rest ∧
          h = ⟨String.ofList op, .binary, [String.ofList op], [String.ofList a],
            line.toList.length - rest.length⟩) ∨
        (∃ w rest, cs = w ++ rest ∧ MethodBrowser.isIdentifier w = true ∧ Ends .unary rest ∧
          h = ⟨String.ofList w, .unary, [String.ofList w], [], line.toList.length - rest.length⟩) ∨
        ∃ found rest, Keywords cs found rest ∧ h = ofPairs found (line.toList.length - rest.length)) := by
  obtain ⟨b, cs, hline, hb, -, -, hskip⟩ := exists_run isLineBlank line.toList
  refine ⟨b, cs, hline, hb, ?_⟩
  cases cs with
  | nil => simp [parse?, skipBlanks, hskip] at hp
  | cons c cs =>
    rw [parse?_eq hskip] at hp
    split at hp
    · next hc => exact .inl (readBinary_eq_some hc hp)
    · split at hp
      · next hc => exact .inr (readWord_eq_some (by simpa using hc) hp)
      · simp at hp

/-- A line is read as the signature it starts with. -/
theorem parse?_eq_some {line : String} {h : Header} (hp : parse? line = some h) :
    ∃ sig rest, Reading line.toList h sig rest := by
  obtain ⟨b, cs, hline, hb, ⟨op, b', a, rest, rfl, hne, hlen, hop, hb', ha, hrest, rfl⟩ |
    ⟨w, rest, rfl, hw, hrest, rfl⟩ | ⟨found, rest, hkeywords, rfl⟩⟩ := parse?_cases hp
  · refine ⟨b ++ op ++ b' ++ a, rest, ?_⟩
    have hend : line.toList.length - rest.length = (b ++ op ++ b' ++ a).length := by
      rw [hline]
      simp only [List.length_append]
      omega
    rw [hend, hline]
    exact reading_binary hb hop hne hlen hb' ha hrest
  · refine ⟨b ++ w, rest, ?_⟩
    have hend : line.toList.length - rest.length = (b ++ w).length := by
      rw [hline]
      simp only [List.length_append]
      omega
    rw [hend, hline]
    exact reading_unary hb hw hrest
  · obtain ⟨sig, hreading⟩ := reading_keyword hb hkeywords
    refine ⟨sig, rest, ?_⟩
    rw [hline]
    exact hreading

/-- The tokens and the arguments of a signature stand in it. -/
theorem Reading.tokens {line : String} {h : Header} {sig rest : List Char}
    (hreading : Reading line.toList h sig rest) (hp : parse? line = some h) :
    ∀ token ∈ h.parts ++ h.arguments, token.toList <:+: sig := by
  -- A signature is told by its length.
  have hsig : ∀ sig' rest', line.toList = sig' ++ rest' →
      h.signatureEnd = line.toList.length - rest'.length → sig' = sig := fun sig' rest' hline hend => by
    refine (List.append_inj (hline.symm.trans hreading.line_eq) ?_).1
    rw [← hreading.signatureEnd, hend, hline, List.length_append, Nat.add_sub_cancel]
  obtain ⟨b, cs, hline, -, ⟨op, b', a, rest', rfl, -, -, -, -, -, -, rfl⟩ |
    ⟨w, rest', rfl, -, -, rfl⟩ | ⟨found, rest', hkeywords, rfl⟩⟩ := parse?_cases hp
  · obtain rfl := hsig (b ++ op ++ b' ++ a) rest' (by simpa using hline) rfl
    simp only [List.singleton_append, List.forall_mem_cons, String.toList_ofList]
    exact ⟨⟨b, b' ++ a, by simp⟩, ⟨b ++ op ++ b', [], by simp⟩, by simp⟩
  · obtain rfl := hsig (b ++ w) rest' (by simpa using hline) rfl
    simp only [List.append_nil, List.forall_mem_singleton, String.toList_ofList]
    exact ⟨b, [], by simp⟩
  · obtain ⟨sig', rfl, -, hfound⟩ := hkeywords.exists_signature
    obtain rfl := hsig (b ++ sig') rest' (by simpa using hline) rfl
    have hlater : sig' <:+: b ++ sig' := (List.suffix_append b sig').isInfix
    intro token htoken
    simp only [ofPairs, List.mem_append, List.mem_map] at htoken
    rcases htoken with ⟨p, hp, rfl⟩ | ⟨p, hp, rfl⟩ <;> rw [String.toList_ofList]
    · exact (hfound p hp).1.trans hlater
    · exact (hfound p hp).2.trans hlater

/-! ## Rendering -/

theorem skipBlanks_of_stops {cs : List Char} (h : Stops isLineBlank cs) : skipBlanks cs = cs :=
  dropWhile_of_stops (w := []) (by simp) h

/-- A unary signature is read back. -/
theorem parse?_unary {line : String} {w rest : List Char} (hline : line.toList = w ++ rest)
    (hw : MethodBrowser.isIdentifier w = true) (hrest : Ends .unary rest) :
    parse? line = some ⟨String.ofList w, .unary, [String.ofList w], [], w.length⟩ := by
  have hhead := head?_isIdentStart hw rest
  have hwRest := isIdentRest_of_isIdentifier hw
  have hskip : skipBlanks line.toList = w ++ rest := by
    rw [hline]
    exact skipBlanks_append (b := []) (by simp) (head?_isIdentRest hhead)
  obtain ⟨c, w, rfl⟩ : ∃ c cs, w = c :: cs := by
    cases w with
    | nil => simp [MethodBrowser.isIdentifier] at hw
    | cons c cs => exact ⟨c, cs, rfl⟩
  have hc : isIdentStart c = true := by simpa using hhead
  have hif : (rest.head? != some ':' || rest.tail.head? == some '=') = true := by
    simpa using hrest.2
  have hend : line.toList.length - rest.length = (c :: w).length := by
    rw [hline, List.length_append]
    omega
  rw [parse?_eq hskip, if_neg (by simp [isBinaryChar_of_isIdentStart hc]), if_pos hc]
  rw [show c :: (w.append rest) = c :: w ++ rest from rfl]
  simp only [readWord, takeWhile_of_stops hwRest hrest.1, dropWhile_of_stops hwRest hrest.1, hif,
    if_true, hend]

theorem isLineBlank_of_isBinaryChar {c : Char} (h : isBinaryChar c = true) :
    isLineBlank c = false := by
  have hnot := of_isBinaryChar (p := fun c => !isLineBlank c) (by decide) h
  simpa using hnot

/-- A binary signature is read back. -/
theorem parse?_binary {line : String} {op a rest : List Char}
    (hline : line.toList = op ++ ' ' :: (a ++ rest)) (hne : op ≠ [])
    (hlen : op.length ≤ Source.maxBinarySize) (hop : ∀ c ∈ op, isBinaryChar c = true)
    (ha : MethodBrowser.isIdentifier a = true) (hrest : Stops isIdentRest rest) :
    parse? line = some ⟨String.ofList op, .binary, [String.ofList op], [String.ofList a],
      (op ++ ' ' :: a).length⟩ := by
  have haRest := isIdentRest_of_isIdentifier ha
  obtain ⟨c, op, rfl⟩ := List.exists_cons_of_ne_nil hne
  have hc := hop c (by simp)
  have hskip : skipBlanks line.toList = c :: (op ++ ' ' :: (a ++ rest)) := by
    rw [hline]
    exact skipBlanks_of_stops (stops_cons (isLineBlank_of_isBinaryChar hc))
  have htake : (c :: (op ++ ' ' :: (a ++ rest))).takeWhile isBinaryChar = c :: op :=
    takeWhile_of_stops (w := c :: op) hop (stops_cons (by decide))
  have hblank : skipBlanks (' ' :: (a ++ rest)) = a ++ rest :=
    skipBlanks_append (b := [' ']) isLineBlank_space (head?_isIdentRest (head?_isIdentStart ha rest))
  have hdrop : (c :: (op ++ ' ' :: (a ++ rest))).drop (c :: op).length = ' ' :: (a ++ rest) := by
    rw [← List.cons_append, List.drop_left]
  have hspace : isBinaryChar ' ' = false := by decide
  have hend : line.toList.length - rest.length = (c :: op ++ ' ' :: a).length := by
    rw [hline]
    simp only [List.length_append, List.length_cons]
    omega
  rw [parse?_eq hskip, if_pos hc]
  simp only [readBinary, htake, List.take_of_length_le hlen, hdrop, hblank,
    takeWhile_of_stops haRest hrest, dropWhile_of_stops haRest hrest, ha, List.head?_cons,
    Option.any_some, hspace, Bool.not_true, Bool.or_false, Bool.false_eq_true, if_false, hend]

/-- A keyword signature is read back. -/
theorem parse?_keyword {line : String} {rest : List Char} {found : List (List Char × List Char)}
    (h : Keywords line.toList found rest) :
    parse? line = some (ofPairs found (line.toList.length - rest.length)) := by
  have hhead := h.head?
  have hskip : skipBlanks line.toList = line.toList :=
    skipBlanks_append (b := []) (by simp) (head?_isIdentRest hhead)
  obtain ⟨tail, hdrop, hnext⟩ := h.dropWhile
  cases hline : line.toList with
  | nil => simp [hline] at hhead
  | cons c cs =>
    have hc : isIdentStart c = true := by simpa [hline] using hhead
    have hnext' : (tail.head? == some '=') = false := by simpa using hnext
    rw [parse?_eq (hskip.trans hline), if_neg (by simp [isBinaryChar_of_isIdentStart hc]), if_pos hc,
      ← hline]
    simp only [readWord, hdrop, List.head?_cons, List.tail_cons, bne_self_eq_false, hnext',
      Bool.or_false, Bool.false_eq_true, if_false, pairs_of_keywords h]
    cases found with
    | nil => exact absurd rfl h.ne_nil
    | cons p found => rfl

/-- Rendered keywords and arguments are keywords and arguments. -/
theorem keywords_render {words : List (List Char)} {arguments : List String} {rest : List Char}
    (hne : words ≠ []) (hlen : arguments.length = words.length)
    (hwords : ∀ w ∈ words, MethodBrowser.isIdentifier w = true)
    (harguments : ∀ a ∈ arguments, MethodBrowser.isIdentifier a.toList = true)
    (hrest : EndsKeyword rest) :
    Keywords ((String.intercalate " " (((Selector.keywordsOf words).zip arguments).map
      fun p => p.1 ++ " " ++ p.2)).toList ++ rest) (words.zip (arguments.map String.toList)) rest := by
  induction words generalizing arguments with
  | nil => exact absurd rfl hne
  | cons w words ih =>
    obtain ⟨a, arguments, rfl⟩ := List.exists_cons_of_length_eq_add_one hlen
    rw [List.forall_mem_cons] at hwords harguments
    cases words with
    | nil =>
      obtain rfl : arguments = [] := by simpa using hlen
      have hlast := Keywords.last hwords.1 (b := [' ']) isLineBlank_space harguments.1 hrest
      simpa [Selector.keywordsOf, Selector.withColons] using hlast
    | cons w' words =>
      obtain ⟨a', arguments, rfl⟩ :=
        List.exists_cons_of_length_eq_add_one (Nat.succ.inj hlen)
      have hrec := ih (by simp) (by simpa using hlen) hwords.2 harguments.2
      have hmore := Keywords.more hwords.1 (b := [' ']) isLineBlank_space harguments.1 (d := [' '])
        (by simp) isLineBlank_space hrec
      simpa [Selector.keywordsOf, Selector.withColons, String.intercalate_cons_cons] using hmore

/-- A rendered signature is read back. -/
theorem parse?_render {h : Header} {rest : List Char} {line : String} (hwf : h.WellFormed)
    (hrest : Ends h.kind rest) (hline : line.toList = h.render.toList ++ rest) :
    parse? line = some { h with signatureEnd := h.render.toList.length } := by
  obtain ⟨selector, kind, parts, arguments, signatureEnd⟩ := h
  obtain ⟨hkind, hparts, harity, harguments⟩ := hwf
  simp only at hkind hparts harity harguments hrest
  subst hparts
  cases kind with
  | unary =>
    obtain rfl : arguments = [] := by simpa [Selector.arity, hkind] using harity
    have hparse := parse?_unary hline (Selector.kind?_eq_unary_iff.1 hkind) hrest
    simpa [render, renderWith, Selector.tokens, hkind, String.ofList_toList] using hparse
  | binary =>
    obtain ⟨a, rfl⟩ : ∃ a, arguments = [a] :=
      List.length_eq_one_iff.1 (by simpa [Selector.arity, hkind] using harity)
    obtain ⟨hne, hlen, hop⟩ := Selector.kind?_eq_binary_iff.1 hkind
    have hline' : line.toList = selector.toList ++ ' ' :: (a.toList ++ rest) := by
      rw [hline]
      simp [render, renderWith]
    have hparse := parse?_binary hline' hne hlen hop (harguments a (by simp)) hrest
    simpa [render, renderWith, Selector.tokens, hkind, String.ofList_toList] using hparse
  | keyword =>
    obtain ⟨words, hne, hident, htokens⟩ := Selector.tokens_of_keyword hkind
    have hselector := Selector.join_tokens hkind
    have hlen : arguments.length = words.length := by
      have hparts : Selector.parts selector = Selector.tokens selector := by
        simp [Selector.tokens, hkind]
      rw [harity, Selector.arity, hkind]
      simp only
      rw [hparts, htokens]
      simp [Selector.keywordsOf, Selector.withColons]
    have hkeywords := keywords_render hne hlen hident harguments hrest
    rw [← htokens] at hkeywords
    have hkeywords' : Keywords line.toList (words.zip (arguments.map String.toList)) rest := by
      rw [hline]
      exact hkeywords
    rw [parse?_keyword hkeywords', hline, List.length_append, Nat.add_sub_cancel]
    have hfst : (words.zip (arguments.map String.toList)).map Prod.fst = words :=
      List.map_fst_zip (by simp [hlen])
    have hsnd : (words.zip (arguments.map String.toList)).map Prod.snd =
        arguments.map String.toList := List.map_snd_zip (by simp [hlen])
    have harguments' : (words.zip (arguments.map String.toList)).map
        (fun p => String.ofList p.2) = arguments := by
      rw [← Function.comp_def, ← List.map_map, hsnd, List.map_map]
      simp [Function.comp_def, String.ofList_toList]
    rw [ofPairs_eq, hfst, ← htokens, hselector, harguments']

end Header

end MethodBrowser
