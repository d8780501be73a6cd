import MethodBrowser.Header
import MethodBrowser.Proofs.Selector

/-!
# Keyword signatures

What the keywords and arguments at the start of a line look like (`Header.Keywords`), apart from how
they are found. `Header.pairs` finds exactly them (`Header.pairs_of_keywords`,
`Header.keywords_of_pairs`).
-/

namespace MethodBrowser

namespace Header

/-! ## Runs of characters -/

/-- No character that satisfies `p` comes first. -/
def Stops (p : Char → Bool) (cs : List Char) : Prop := cs.head?.any p = false

theorem stops_cons {p : Char → Bool} {c : Char} {cs : List Char} (h : p c = false) :
    Stops p (c :: cs) := by
  simpa [Stops] using h

theorem stops_nil (p : Char → Bool) : Stops p [] := rfl

theorem takeWhile_of_stops {p : Char → Bool} {w rest : List Char} (hw : ∀ c ∈ w, p c = true)
    (hrest : Stops p rest) : (w ++ rest).takeWhile p = w := by
  rw [List.takeWhile_append_of_pos hw]
  cases rest with
  | nil => simp
  | cons c rest => rw [List.takeWhile_cons_of_neg (by simpa [Stops] using hrest), List.append_nil]

theorem dropWhile_of_stops {p : Char → Bool} {w rest : List Char} (hw : ∀ c ∈ w, p c = true)
    (hrest : Stops p rest) : (w ++ rest).dropWhile p = rest := by
  rw [List.dropWhile_append_of_pos hw]
  cases rest with
  | nil => rfl
  | cons c rest => rw [List.dropWhile_cons_of_neg (by simpa [Stops] using hrest)]

theorem stops_dropWhile (p : Char → Bool) (cs : List Char) : Stops p (cs.dropWhile p) := by
  have h := List.head?_dropWhile_not p cs
  unfold Stops
  cases hhead : (cs.dropWhile p).head? with
  | none => rfl
  | some c => simpa [hhead] using h

theorem mem_takeWhile {p : Char → Bool} {cs : List Char} {c : Char} (h : c ∈ cs.takeWhile p) :
    p c = true :=
  List.all_eq_true.1 List.all_takeWhile c h

theorem isIdentRest_of_isLineBlank {c : Char} (h : isLineBlank c = true) :
    isIdentRest c = false := by
  simp only [isLineBlank, Bool.or_eq_true, beq_iff_eq] at h
  rcases h with (rfl | rfl) | rfl <;> decide

theorem isLineBlank_space : ∀ c ∈ [' '], isLineBlank c = true :=
  List.forall_mem_singleton.2 rfl

/-- White space before an identifier is skipped. -/
theorem skipBlanks_append {b cs : List Char} (hb : ∀ c ∈ b, isLineBlank c = true)
    (hcs : cs.head?.any isIdentRest = true) : skipBlanks (b ++ cs) = cs := by
  refine dropWhile_of_stops hb ?_
  cases cs with
  | nil => simp at hcs
  | cons c cs =>
    refine stops_cons ?_
    by_contra hblank
    simp [isIdentRest_of_isLineBlank (by simpa using hblank)] at hcs

theorem head?_isIdentStart {w : List Char} (h : isIdentifier w = true) (rest : List Char) :
    (w ++ rest).head?.any isIdentStart = true := by
  cases w with
  | nil => simp [isIdentifier] at h
  | cons c w =>
    rw [isIdentifier, Bool.and_eq_true] at h
    simpa using h.1

theorem head?_isIdentRest {cs : List Char} (h : cs.head?.any isIdentStart = true) :
    cs.head?.any isIdentRest = true := by
  cases cs with
  | nil => simp at h
  | cons c cs => simpa using isIdentRest_of_isIdentStart (by simpa using h)

/-! ## Keywords and arguments -/

/-- What may follow the last argument of a keyword signature: no more of it, no colon, and no
further keyword with an argument. -/
structure EndsKeyword (rest : List Char) : Prop where
  stops : Stops isIdentRest rest
  noColon : rest.head? ≠ some ':'
  noPair : (skipBlanks rest).head?.any isIdentStart = true → (pairs (skipBlanks rest)).1 = []

theorem endsKeyword_nil : EndsKeyword [] := ⟨stops_nil _, by simp, by simp [skipBlanks]⟩

/-- The characters `cs` start with the given keywords and arguments, and `rest` follows them. -/
inductive Keywords : List Char → List (List Char × List Char) → List Char → Prop
  | last {w b a rest : List Char} :
      isIdentifier w = true → (∀ c ∈ b, isLineBlank c = true) → isIdentifier a = true →
      EndsKeyword rest → Keywords (w ++ ':' :: (b ++ (a ++ rest))) [(w, a)] rest
  | more {w b a d cs rest : List Char} {found : List (List Char × List Char)} :
      isIdentifier w = true → (∀ c ∈ b, isLineBlank c = true) → isIdentifier a = true →
      d ≠ [] → (∀ c ∈ d, isLineBlank c = true) → Keywords cs found rest →
      Keywords (w ++ ':' :: (b ++ (a ++ (d ++ cs)))) ((w, a) :: found) rest

namespace Keywords

variable {cs rest : List Char} {found : List (List Char × List Char)}

theorem head? (h : Keywords cs found rest) : cs.head?.any isIdentStart = true := by
  cases h with
  | last hw => exact head?_isIdentStart hw _
  | more hw => exact head?_isIdentStart hw _

theorem ne_nil (h : Keywords cs found rest) : found ≠ [] := by
  cases h <;> simp

theorem ends (h : Keywords cs found rest) : EndsKeyword rest := by
  induction h with
  | last _ _ _ hrest => exact hrest
  | more _ _ _ _ _ _ ih => exact ih

theorem isIdentifier (h : Keywords cs found rest) :
    ∀ p ∈ found, isIdentifier p.1 = true ∧ isIdentifier p.2 = true := by
  induction h with
  | last hw _ ha _ => simpa using ⟨hw, ha⟩
  | more hw _ ha _ _ _ ih => exact List.forall_mem_cons.2 ⟨⟨hw, ha⟩, ih⟩

end Keywords

/-- The characters of signatures. -/
def isSignatureChar (c : Char) : Bool :=
  isLineBlank c || isIdentRest c || c == ':' || isBinaryChar c

theorem isSignatureChar_of_isLineBlank {c : Char} (h : isLineBlank c = true) :
    isSignatureChar c = true := by
  simp [isSignatureChar, h]

theorem isSignatureChar_of_isIdentRest {c : Char} (h : isIdentRest c = true) :
    isSignatureChar c = true := by
  simp [isSignatureChar, h]

theorem isSignatureChar_of_isIdentifier {w : List Char} (h : MethodBrowser.isIdentifier w = true) :
    ∀ c ∈ w, isSignatureChar c = true := fun c hc =>
  isSignatureChar_of_isIdentRest (isIdentRest_of_isIdentifier h c hc)

/-- What comes before the rest is a signature, and the keywords and arguments stand in it. -/
theorem Keywords.exists_signature {cs rest : List Char} {found : List (List Char × List Char)}
    (h : Keywords cs found rest) :
    ∃ sig, cs = sig ++ rest ∧ (∀ c ∈ sig, isSignatureChar c = true) ∧
      ∀ p ∈ found, p.1 ++ [':'] <:+: sig ∧ p.2 <:+: sig := by
  induction h with
  | @last w b a rest hw hb ha hrest =>
    refine ⟨w ++ ':' :: (b ++ a), by simp, fun c hc => ?_, List.forall_mem_singleton.2 ⟨?_, ?_⟩⟩
    · simp only [List.mem_append, List.mem_cons] at hc
      rcases hc with hc | rfl | hc | hc
      · exact isSignatureChar_of_isIdentifier hw c hc
      · decide
      · exact isSignatureChar_of_isLineBlank (hb c hc)
      · exact isSignatureChar_of_isIdentifier ha c hc
    · exact ⟨[], b ++ a, by simp⟩
    · exact ⟨w ++ ':' :: b, [], by simp⟩
  | @more w b a b' cs rest found hw hb ha hne hb' hmore ih =>
    obtain ⟨sig, rfl, hsig, hfound⟩ := ih
    refine ⟨w ++ ':' :: (b ++ a ++ b' ++ sig), by simp, fun c hc => ?_,
      List.forall_mem_cons.2 ⟨⟨?_, ?_⟩, fun p hp => ?_⟩⟩
    · simp only [List.mem_append, List.mem_cons] at hc
      rcases hc with hc | rfl | ((hc | hc) | hc) | hc
      · exact isSignatureChar_of_isIdentifier hw c hc
      · decide
      · exact isSignatureChar_of_isLineBlank (hb c hc)
      · exact isSignatureChar_of_isIdentifier ha c hc
      · exact isSignatureChar_of_isLineBlank (hb' c hc)
      · exact hsig c hc
    · exact ⟨[], b ++ a ++ b' ++ sig, by simp⟩
    · exact ⟨w ++ ':' :: b, b' ++ sig, by simp⟩
    · have hlater : sig <:+: w ++ ':' :: (b ++ a ++ b' ++ sig) :=
        ⟨w ++ ':' :: (b ++ a ++ b'), [], by simp⟩
      exact ⟨(hfound p hp).1.trans hlater, (hfound p hp).2.trans hlater⟩

/-! ## Finding them -/

/-- What is found from a keyword and its argument on. -/
def pairsAfter (w a tail : List Char) : List (List Char × List Char) × List Char :=
  if (skipBlanks tail).head?.any isIdentStart then
    match pairs (skipBlanks tail) with
    | ([], _) => ([(w, a)], tail)
    | (more, rest) => ((w, a) :: more, rest)
  else ([(w, a)], tail)

theorem pairs_of_pair {w b a tail : List Char} (hw : MethodBrowser.isIdentifier w = true)
    (hb : ∀ c ∈ b, isLineBlank c = true) (ha : MethodBrowser.isIdentifier a = true)
    (hstops : Stops isIdentRest tail) (hcolon : tail.head? ≠ some ':') :
    pairs (w ++ ':' :: (b ++ (a ++ tail))) = pairsAfter w a tail := by
  have hwRest := isIdentRest_of_isIdentifier hw
  have haRest := isIdentRest_of_isIdentifier ha
  have hdrop : (w ++ ':' :: (b ++ (a ++ tail))).dropWhile isIdentRest =
      ':' :: (b ++ (a ++ tail)) :=
    dropWhile_of_stops hwRest (stops_cons (by decide))
  have htake : (w ++ ':' :: (b ++ (a ++ tail))).takeWhile isIdentRest = w :=
    takeWhile_of_stops hwRest (stops_cons (by decide))
  have hskip : skipBlanks (b ++ (a ++ tail)) = a ++ tail :=
    skipBlanks_append hb (head?_isIdentRest (head?_isIdentStart ha tail))
  have hne : w.isEmpty = false := by
    cases w with
    | nil => simp [MethodBrowser.isIdentifier] at hw
    | cons => rfl
  have hcolon' : (tail.head? == some ':') = false := by simpa using hcolon
  rw [pairs]
  split
  · next afterColon hafter =>
    rw [hdrop] at hafter
    obtain rfl : b ++ (a ++ tail) = afterColon := by simpa using hafter
    simp only [htake, hskip, takeWhile_of_stops haRest hstops, dropWhile_of_stops haRest hstops,
      hne, ha, hcolon', Bool.not_true, Bool.or_false, Bool.false_eq_true, if_false]
    rfl
  · next hnone => exact absurd hdrop (hnone _)

/-- Keywords and arguments are found. -/
theorem pairs_of_keywords {cs rest : List Char} {found : List (List Char × List Char)}
    (h : Keywords cs found rest) : pairs cs = (found, rest) := by
  induction h with
  | @last w b a rest hw hb ha hrest =>
    rw [pairs_of_pair hw hb ha hrest.stops hrest.noColon, pairsAfter]
    split
    · next hhead =>
      have hnone := hrest.noPair hhead
      split
      · rfl
      · next hsome => simp_all
    · rfl
  | @more w b a b' cs rest found hw hb ha hne hb' hmore ih =>
    have hhead := hmore.head?
    obtain ⟨c, b', rfl⟩ := List.exists_cons_of_ne_nil hne
    have hc := hb' c (by simp)
    have hstops : Stops isIdentRest (c :: b' ++ cs) :=
      stops_cons (isIdentRest_of_isLineBlank hc)
    have hcolon : (c :: b' ++ cs).head? ≠ some ':' := by
      rintro heq
      obtain rfl : c = ':' := by simpa using heq
      exact absurd hc (by decide)
    rw [pairs_of_pair hw hb ha hstops hcolon, pairsAfter,
      skipBlanks_append hb' (head?_isIdentRest hhead), if_pos hhead, ih]
    split
    · next hnil => exact absurd (congrArg Prod.fst hnil) hmore.ne_nil
    · next hsome =>
      obtain ⟨rfl, rfl⟩ := Prod.mk.inj hsome
      rfl

/-- A character class splits a line into the run of it and the rest. -/
theorem exists_run (p : Char → Bool) (cs : List Char) :
    ∃ w rest, cs = w ++ rest ∧ (∀ c ∈ w, p c = true) ∧ Stops p rest ∧
      cs.takeWhile p = w ∧ cs.dropWhile p = rest :=
  ⟨_, _, List.takeWhile_append_dropWhile.symm, fun _ => mem_takeWhile, stops_dropWhile p cs, rfl,
    rfl⟩

theorem isIdentifier_of_head? {w rest : List Char}
    (hhead : (w ++ rest).head?.any isIdentStart = true) (hw : ∀ c ∈ w, isIdentRest c = true)
    (hne : w ≠ []) : MethodBrowser.isIdentifier w = true := by
  obtain ⟨c, w, rfl⟩ := List.exists_cons_of_ne_nil hne
  rw [List.forall_mem_cons] at hw
  rw [MethodBrowser.isIdentifier, Bool.and_eq_true, List.all_eq_true]
  exact ⟨by simpa using hhead, hw.2⟩

/-- What is found is a row of keywords and arguments. -/
theorem keywords_of_pairs {cs rest : List Char} {found : List (List Char × List Char)}
    (hhead : cs.head?.any isIdentStart = true) (h : pairs cs = (found, rest)) (hne : found ≠ []) :
    Keywords cs found rest := by
  induction hn : cs.length using Nat.strongRecOn generalizing cs found rest with
  | ind n ih =>
    have hpairs := h
    rw [pairs] at h
    split at h
    · next afterColon hafter =>
      obtain ⟨w, rest₀, rfl, hw, -, htake, hdrop⟩ := exists_run isIdentRest cs
      obtain rfl : rest₀ = ':' :: afterColon := hdrop.symm.trans hafter
      obtain ⟨b, rest₁, rfl, hb, -, -, hskip⟩ := exists_run isLineBlank afterColon
      obtain ⟨a, tail, rfl, ha, hstops, htake', hdrop'⟩ := exists_run isIdentRest rest₁
      simp only [skipBlanks, htake, hskip, htake', hdrop'] at h
      split at h
      · exact absurd (congrArg Prod.fst h).symm hne
      · next hif =>
        simp only [Bool.or_eq_true, Bool.not_eq_true', not_or, Bool.not_eq_false,
          beq_iff_eq, List.isEmpty_iff] at hif
        obtain ⟨⟨hwne, hident⟩, hcolon⟩ := hif
        have hword := isIdentifier_of_head? hhead hw hwne
        -- The first keyword and argument are read; the rest is either none or a shorter row.
        rw [pairs_of_pair hword hb hident hstops hcolon, pairsAfter] at hpairs
        split at hpairs
        · next hmore =>
          cases hrec : pairs (skipBlanks tail) with
          | mk more rest' =>
            rw [hrec] at hpairs
            cases more with
            | nil =>
              obtain ⟨rfl, rfl⟩ := Prod.mk.inj hpairs
              exact .last hword hb hident ⟨hstops, hcolon, fun _ => by rw [hrec]⟩
            | cons p more =>
              obtain ⟨rfl, rfl⟩ := Prod.mk.inj hpairs
              obtain ⟨b', cs', rfl, hb', -, -, hskip'⟩ := exists_run isLineBlank tail
              rw [skipBlanks, hskip'] at hrec hmore
              have hblank : b' ≠ [] := by
                rintro rfl
                have hrest := head?_isIdentRest hmore
                rw [Stops, List.nil_append, hrest] at hstops
                simp at hstops
              refine .more hword hb hident hblank hb' (ih cs'.length ?_ hmore hrec (by simp) rfl)
              rw [← hn]
              simp only [List.length_append, List.length_cons]
              omega
        · next hnone =>
          obtain ⟨rfl, rfl⟩ := Prod.mk.inj hpairs
          exact .last hword hb hident ⟨hstops, hcolon, fun hhead' => absurd hhead' hnone⟩
    · exact absurd (congrArg Prod.fst h).symm hne

end Header

end MethodBrowser
