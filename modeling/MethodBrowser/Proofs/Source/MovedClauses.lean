import MethodBrowser.Proofs.Source.Clauses

/-!
# Moving statements

Clauses that fit together still do so after a row of statements is replaced by one (`Prose.replace`),
and statements of one body can be written one under the other as a body of their own (`prose_listed`).
-/

namespace MethodBrowser

/-! ## Finding a statement among clauses -/

/-- Clauses that others follow. -/
def lead (cs : List Clause) : List Char := cs.flatMap fun c => c.chars ++ ['.']

theorem joined_cons (c : Clause) {cs : List Clause} (h : cs ≠ []) :
    joined (c :: cs) = c.chars ++ '.' :: joined cs := by
  cases cs with
  | nil => exact absurd rfl h
  | cons c' cs => rfl

theorem joined_append (cs : List Clause) (c : Clause) (cs' : List Clause) :
    joined (cs ++ c :: cs') = lead cs ++ joined (c :: cs') := by
  induction cs with
  | nil => rfl
  | cons d cs ih => rw [List.cons_append, joined_cons d (by simp), ih, lead, lead]; simp

theorem utf8Len_lead_cons (c : Clause) (cs : List Clause) :
    String.utf8Len (lead (c :: cs)) = String.utf8Len c.chars + 1 + String.utf8Len (lead cs) := by
  rw [lead, List.flatMap_cons, String.utf8Len_append, String.utf8Len_append]
  rfl

/-- What follows a clause does not depend on it. -/
theorem exists_joined_cons (cs : List Clause) : ∃ r, ∀ c : Clause, joined (c :: cs) = c.chars ++ r := by
  cases cs with
  | nil => exact ⟨[], fun c => (List.append_nil _).symm⟩
  | cons c' cs => exact ⟨'.' :: joined (c' :: cs), fun _ => rfl⟩

/-- The clause of a statement. -/
theorem exists_clause {cs : List Clause} {b i : Nat} {sp : Span} (h : (spansFrom b cs)[i]? = some sp) :
    ∃ front before text after back, cs = front ++ .sentence before text after :: back ∧
      texts front = (texts cs).take i ∧ texts back = (texts cs).drop (i + 1) ∧
      sp = ⟨b + String.utf8Len (lead front ++ before),
        b + String.utf8Len (lead front ++ before ++ text)⟩ := by
  induction cs generalizing b i with
  | nil => simp [spansFrom] at h
  | cons c cs ih =>
    cases c with
    | blank gap =>
      obtain ⟨front, before, text, after, back, rfl, hfront, hback, rfl⟩ := ih h
      refine ⟨.blank gap :: front, before, text, after, back, rfl, hfront, hback, ?_⟩
      simp only [utf8Len_lead_cons, Clause.chars, String.utf8Len_append, Span.mk.injEq]
      omega
    | sentence before text after =>
      cases i with
      | zero =>
        obtain rfl := Option.some.inj h
        exact ⟨[], before, text, after, cs, rfl, rfl, rfl, by simp [lead, Nat.add_assoc]⟩
      | succ i =>
        obtain ⟨front, before', text', after', back, rfl, hfront, hback, rfl⟩ := ih h
        refine ⟨.sentence before text after :: front, before', text', after', back, rfl, ?_, ?_, ?_⟩
        · exact congrArg (text :: ·) hfront
        · exact hback
        · simp only [utf8Len_lead_cons, Clause.chars, String.utf8Len_append, Span.mk.injEq]
          omega

/-! ## Replacing statements -/

theorem Clause.Follows.replace {before text after x after' : List Char}
    (h : (Clause.sentence before text after).Follows) (hx : IsSentence x)
    (hdigit : (Source.ofChars x).byteIs Byte.isDigit 0 = false) :
    (Clause.sentence before x after').Follows := by
  rw [Follows, chars] at h ⊢
  by_cases hbefore : before = []
  · have hne : x ≠ [] := by
      rintro rfl
      exact absurd hx.lt (Nat.lt_irrefl 0)
    rw [hbefore, List.nil_append, Source.byteIs_zero_append hne, hdigit]
  · rwa [Source.byteIs_zero_append hbefore] at h ⊢

/-- One statement takes the place of a row of them. -/
theorem Prose.replace {front back front' back' : List Clause}
    {before₁ text₁ after₁ before₂ text₂ after₂ x : List Char}
    (h₁ : Prose (front ++ .sentence before₁ text₁ after₁ :: back'))
    (h₂ : Prose (front' ++ .sentence before₂ text₂ after₂ :: back)) (hx : IsSentence x)
    (hclosed : IsClosed x) (hdigit : (Source.ofChars x).byteIs Byte.isDigit 0 = false) :
    Prose (front ++ .sentence before₁ x after₂ :: back) := by
  have hfinal₁ := List.forall_mem_append.1 h₁.final
  have hfinal₂ := List.forall_mem_append.1 h₂.final
  rw [List.forall_mem_cons] at hfinal₁ hfinal₂
  obtain ⟨hpair₁, -, hcross₁⟩ := List.pairwise_append.1 h₁.closed
  obtain ⟨-, hpair₂, -⟩ := List.pairwise_append.1 h₂.closed
  rw [List.pairwise_cons] at hpair₂
  have hbefore : IsGap before₁ := hfinal₁.2.1.1
  refine ⟨by simp, List.forall_mem_append.2 ⟨hfinal₁.1, List.forall_mem_cons.2
    ⟨⟨hbefore, hx, hfinal₂.2.1.2.2.1, fun _ => hclosed.mode⟩, hfinal₂.2.2⟩⟩,
    List.pairwise_append.2 ⟨hpair₁, List.pairwise_cons.2 ⟨fun c hc => ?_, hpair₂.2⟩,
      fun c hc d hd => ?_⟩⟩
  · obtain ⟨⟨-, -, -, hafter⟩, hfollows⟩ := hpair₂.1 c hc
    exact ⟨⟨hbefore, hx, hclosed, hafter⟩, hfollows⟩
  · obtain ⟨hc', hfollows⟩ := hcross₁ c hc _ (List.mem_cons_self ..)
    refine ⟨hc', ?_⟩
    rcases List.mem_cons.1 hd with rfl | hd
    · exact hfollows.replace hx hdigit
    · exact (hpair₂.1 d hd).2

/-! ## Statements one under the other -/

theorem Prose.isSentence {cs : List Clause} (h : Prose cs) : ∀ w ∈ texts cs, IsSentence w := by
  intro w hw
  obtain ⟨c, hc, htext⟩ := List.mem_filterMap.1 hw
  have hfinal := h.final c hc
  cases c with
  | blank gap => simp [Clause.text?] at htext
  | sentence before text after =>
    obtain rfl := Option.some.inj htext
    exact hfinal.2.1

theorem Prose.isClosed {cs : List Clause} (h : Prose cs) :
    (texts cs).Pairwise fun w _ => IsClosed w := by
  refine h.closed.filterMap _ fun c c' hclosed w hw w' _ => ?_
  cases c with
  | blank gap => simp [Clause.text?] at hw
  | sentence before text after =>
    obtain rfl := Option.some.inj hw
    exact hclosed.1.2.2.1

/-- Statements one after the other, with a gap before the first one and another gap before each of
the others. -/
def listed (first other text : List Char) (rest : List (List Char)) : List Clause :=
  .sentence first text [] :: rest.map (.sentence other · [])

theorem texts_listed (first other text : List Char) (rest : List (List Char)) :
    texts (listed first other text rest) = text :: rest := by
  have hrest : texts (rest.map (.sentence other · [])) = rest := by
    rw [texts, List.filterMap_map]
    exact List.filterMap_some ..
  exact congrArg (text :: ·) hrest

theorem joined_listed (first other text : List Char) (rest : List (List Char)) :
    joined (listed first other text rest) =
      first ++ List.intercalate ('.' :: other) (text :: rest) := by
  induction rest generalizing first text with
  | nil => simp [listed, joined, Clause.chars]
  | cons text' rest ih =>
    have h := ih other text'
    rw [listed] at h ⊢
    rw [List.map_cons, joined_cons _ (by simp), h, List.intercalate_cons_cons]
    simp [Clause.chars]

theorem prose_listed {first other text : List Char} {rest : List (List Char)} (hfirst : IsGap first)
    (hother : IsGap other) (hne : other ≠ [])
    (hdigit : (Source.ofChars other).byteIs Byte.isDigit 0 = false)
    (hsentence : ∀ w ∈ text :: rest, IsSentence w)
    (hclosed : (text :: rest).Pairwise fun w _ => IsClosed w) :
    Prose (listed first other text rest) := by
  have htail : IsTail [] := fun cell hmem => absurd hmem (by simp [classify])
  have hclause : ∀ {gap w}, IsGap gap → IsSentence w → (Clause.sentence gap w []).Final :=
    fun hgap hw => ⟨hgap, hw, htail, fun h => absurd rfl h⟩
  have hfollows : ∀ w, (Clause.sentence other w []).Follows := fun w => by
    rw [Clause.Follows, Clause.chars, Source.byteIs_zero_append hne, hdigit]
  rw [List.forall_mem_cons] at hsentence
  rw [List.pairwise_cons] at hclosed
  refine ⟨by simp [listed], ?_, ?_⟩
  · refine List.forall_mem_cons.2 ⟨hclause hfirst hsentence.1, List.forall_mem_map.2 fun w hw => ?_⟩
    exact hclause hother (hsentence.2 w hw)
  · refine List.pairwise_cons.2 ⟨List.forall_mem_map.2 fun w hw => ⟨⟨hfirst, hsentence.1,
      hclosed.1 w hw, htail, rfl⟩, hfollows w⟩, List.pairwise_map.2 ?_⟩
    exact hclosed.2.imp_of_mem fun {w w'} hw _ h =>
      ⟨⟨hother, hsentence.2 w hw, h, htail, rfl⟩, hfollows w'⟩

end MethodBrowser
