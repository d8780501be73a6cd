import Mathlib.Data.List.Basic
import MethodBrowser.Proofs.Source.Text
import MethodBrowser.Selector

/-!
# How selectors are spelled

A unary selector is an identifier and a binary one a short operator. A keyword selector is made of
one or more keywords, identifiers with a colon after each; cutting it after each colon gives these
keywords back (`Selector.kind?_eq_keyword_iff`).
-/

namespace MethodBrowser

theorem not_colon_of_isIdentifier {w : List Char} (h : isIdentifier w = true) : ':' ∉ w := by
  intro hmem
  exact absurd (isIdentRest_of_isIdentifier h _ hmem) (by decide)

theorem isIdentRest_of_isBinaryChar {c : Char} (h : isBinaryChar c = true) :
    isIdentRest c = false := by
  have hnot := of_isBinaryChar (p := fun c => !isIdentRest c) (by decide) h
  simpa using hnot

theorem isBinaryChar_of_isIdentStart {c : Char} (h : isIdentStart c = true) :
    isBinaryChar c = false := by
  by_contra hbinary
  have := isIdentRest_of_isIdentStart h
  simp [isIdentRest_of_isBinaryChar (by simpa using hbinary)] at this

theorem not_isIdentifier_of_isBinaryChar {cs : List Char}
    (h : ∀ c ∈ cs, isBinaryChar c = true) : isIdentifier cs = false := by
  cases cs with
  | nil => rfl
  | cons c cs =>
    by_contra hident
    have hrest := isIdentRest_of_isIdentifier (by simpa using hident) c (by simp)
    simp [isIdentRest_of_isBinaryChar (h c (by simp))] at hrest

namespace Selector

/-- The words with a colon after each. -/
def withColons (words : List (List Char)) : List (List Char) := words.map (· ++ [':'])

/-- The keywords of some words. -/
def keywordsOf (words : List (List Char)) : List String := (withColons words).map String.ofList

theorem cutAtColons_cons_colon (cs : List Char) :
    cutAtColons (':' :: cs) = [':'] :: cutAtColons cs := by
  rw [cutAtColons, if_pos rfl]

/-- A word is cut off after its colon. -/
theorem cutAtColons_append {w : List Char} (h : ':' ∉ w) (cs : List Char) :
    cutAtColons (w ++ ':' :: cs) = (w ++ [':']) :: cutAtColons cs := by
  induction w with
  | nil => exact cutAtColons_cons_colon cs
  | cons c w ih =>
    rw [List.mem_cons, not_or] at h
    rw [List.cons_append, cutAtColons, if_neg (Ne.symm h.1), ih h.2]
    rfl

theorem cutAtColons_flatten {words : List (List Char)} (h : ∀ w ∈ words, ':' ∉ w) :
    cutAtColons (withColons words).flatten = withColons words := by
  induction words with
  | nil => rfl
  | cons w words ih =>
    rw [List.forall_mem_cons] at h
    have hcons : (withColons (w :: words)).flatten = w ++ ':' :: (withColons words).flatten := by
      simp [withColons]
    rw [hcons, cutAtColons_append h.1, ih h.2]
    rfl

/-- A text that ends with a colon is cut into words with colons. -/
theorem exists_words {cs : List Char} (h : cs.getLast? = some ':') :
    ∃ words, words ≠ [] ∧ cutAtColons cs = withColons words ∧ cs = (withColons words).flatten := by
  induction cs with
  | nil => simp at h
  | cons c cs ih =>
    cases cs with
    | nil =>
      obtain rfl : c = ':' := by simpa using h
      exact ⟨[[]], by simp, rfl, rfl⟩
    | cons d cs =>
      rw [List.getLast?_cons_cons] at h
      obtain ⟨words, hne, hcut, hflat⟩ := ih h
      by_cases hc : c = ':'
      · subst hc
        refine ⟨[] :: words, by simp, ?_, ?_⟩
        · rw [cutAtColons_cons_colon, hcut]
          rfl
        · rw [hflat]
          rfl
      · cases words with
        | nil => exact absurd rfl hne
        | cons w words =>
          refine ⟨(c :: w) :: words, by simp, ?_, ?_⟩
          · rw [cutAtColons, if_neg hc, hcut]
            rfl
          · rw [hflat]
            rfl

/-! ## Shapes -/

theorem kind?_eq_unary_iff {selector : String} :
    kind? selector = some .unary ↔ isIdentifier selector.toList = true := by
  constructor
  · intro h
    simp only [kind?] at h
    split at h
    · next hident => exact hident
    · split at h
      · simp at h
      · split at h <;> simp at h
  · intro h
    simp only [kind?, h, if_true]

/-- A binary selector is a short operator. -/
theorem kind?_eq_binary_iff {selector : String} :
    kind? selector = some .binary ↔ selector.toList ≠ [] ∧
      selector.toList.length ≤ Source.maxBinarySize ∧
      ∀ c ∈ selector.toList, isBinaryChar c = true := by
  constructor
  · intro h
    simp only [kind?] at h
    split at h
    · simp at h
    · split at h
      · next hif => simpa [and_assoc] using hif
      · split at h <;> simp at h
  · rintro ⟨hne, hlen, hall⟩
    have hif : (!selector.toList.isEmpty && Nat.ble selector.toList.length Source.maxBinarySize
        && selector.toList.all isBinaryChar) = true := by
      rw [Bool.and_eq_true, Bool.and_eq_true, List.all_eq_true, Nat.ble_eq]
      exact ⟨⟨by simpa using hne, hlen⟩, hall⟩
    simp only [kind?, not_isIdentifier_of_isBinaryChar hall, hif, Bool.false_eq_true, if_false,
      if_true]

theorem getLast?_withColons {words : List (List Char)} (h : words ≠ []) :
    (withColons words).flatten.getLast? = some ':' := by
  rcases List.eq_nil_or_concat words with rfl | ⟨init, last, rfl⟩
  · exact absurd rfl h
  · simp [withColons]

/-- A keyword selector is a row of identifiers with a colon after each. -/
theorem kind?_eq_keyword_iff {selector : String} :
    kind? selector = some .keyword ↔
      ∃ words, words ≠ [] ∧ (∀ w ∈ words, isIdentifier w = true) ∧
        selector.toList = (withColons words).flatten := by
  constructor
  · intro h
    unfold kind? at h
    simp only at h
    split at h
    · simp at h
    · split at h
      · simp at h
      · split at h
        · next hif =>
          rw [Bool.and_eq_true, beq_iff_eq, List.all_eq_true] at hif
          obtain ⟨words, hne, hcut, hflat⟩ := exists_words hif.1
          refine ⟨words, hne, fun w hw => ?_, hflat⟩
          have hident := hif.2 (w ++ [':']) (by rw [hcut]; exact List.mem_map_of_mem hw)
          rwa [List.dropLast_concat] at hident
        · simp at h
  · rintro ⟨words, hne, hident, hflat⟩
    have hcolon : ∀ w ∈ words, ':' ∉ w := fun w hw => not_colon_of_isIdentifier (hident w hw)
    have hcut : cutAtColons selector.toList = withColons words := by
      rw [hflat, cutAtColons_flatten hcolon]
    have hlast := getLast?_withColons hne
    have hmem : ':' ∈ selector.toList := by
      rw [hflat]
      exact List.mem_of_getLast? hlast
    have hunary : isIdentifier selector.toList = false := by
      by_contra h
      exact not_colon_of_isIdentifier (by simpa using h) hmem
    have hbinary : selector.toList.all isBinaryChar = false := by
      rw [List.all_eq_false]
      exact ⟨':', hmem, by decide⟩
    have hall : (withColons words).all (fun part => isIdentifier part.dropLast) = true := by
      simpa [withColons] using hident
    simp only [kind?, hunary, hbinary, hcut, hall, Bool.and_false, Bool.false_eq_true, if_false]
    rw [hflat, hlast]
    rfl

/-- The keywords of a keyword selector. -/
theorem tokens_of_words {selector : String} {words : List (List Char)} (hne : words ≠ [])
    (hident : ∀ w ∈ words, isIdentifier w = true)
    (hflat : selector.toList = (withColons words).flatten) :
    tokens selector = keywordsOf words := by
  have hkind : kind? selector = some .keyword := kind?_eq_keyword_iff.2 ⟨words, hne, hident, hflat⟩
  simp only [tokens, hkind, parts, keywordsOf]
  rw [hflat, cutAtColons_flatten fun w hw => not_colon_of_isIdentifier (hident w hw)]

theorem tokens_of_keyword {selector : String} (h : kind? selector = some .keyword) :
    ∃ words, words ≠ [] ∧ (∀ w ∈ words, isIdentifier w = true) ∧
      tokens selector = keywordsOf words := by
  obtain ⟨words, hne, hident, hflat⟩ := kind?_eq_keyword_iff.1 h
  exact ⟨words, hne, hident, tokens_of_words hne hident hflat⟩

theorem toList_join_keywordsOf (words : List (List Char)) :
    (String.join (keywordsOf words)).toList = (withColons words).flatten := by
  rw [String.toList_join, keywordsOf, List.flatMap_map]
  simp [List.flatMap_def]

/-- The keywords of a selector spell it. -/
theorem join_tokens {selector : String} (h : kind? selector = some .keyword) :
    String.join (tokens selector) = selector := by
  obtain ⟨words, hne, hident, hflat⟩ := kind?_eq_keyword_iff.1 h
  rw [← String.toList_inj, tokens_of_words hne hident hflat, toList_join_keywordsOf, hflat]

/-- Words that spell a keyword selector together are its words. -/
theorem tokens_join {words : List (List Char)} (hne : words ≠ [])
    (hident : ∀ w ∈ words, isIdentifier w = true) :
    tokens (String.join (keywordsOf words)) = keywordsOf words :=
  tokens_of_words hne hident (toList_join_keywordsOf words)

end Selector

end MethodBrowser
