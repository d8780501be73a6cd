import Mathlib.Data.List.Forall2
import MethodBrowser.Proofs.Source.AlignedRegion
import MethodBrowser.Proofs.Source.Text
import MethodBrowser.Send.Simple

/-!
# Unary and binary sends of aligned sources

Aligned sources have the same unary and binary sends, one by one, at corresponding places
(`Alignment.simpleSends_shift`). What a send says of its receiver and the spelling of its selector
are read from the text, so they are the same where no word but keywords is respelled: neither a
receiver nor a unary selector is followed by a colon.
-/

namespace MethodBrowser

namespace Source

variable {src : Source} {i l m : Nat} {n : Nesting}

theorem IsWord.identEnd {k : Nat} (h : src.IsWord i k) (hl : i + k ≤ l) :
    src.identEnd i l = i + k := by
  have hright : src.holds (fun c => Byte.isIdent c.byte) (i + k) = false := by
    simpa [isWordEnd, byteIs] using h.right
  rw [Source.identEnd, runEnd_add hl fun j hj => holds_of_imp
    (fun _ => Cell.isIdent_of_isWordChar) (h.chars j hj), runEnd_of_not_holds hright]

/-- The word that starts where a word starts is that word. -/
theorem IsWord.eq_of_wordAt? {k : Nat} {word : Span} (h : src.IsWord i k) (hl : i + k ≤ l)
    (hw : src.wordAt? i l = some word) : word = ⟨i, i + k⟩ := by
  obtain ⟨-, -, -, rfl⟩ := wordAt?_eq_some hw
  rw [h.identEnd hl]

/-- The end of a number whose digits before the point end at `whole`. -/
def fractionEnd (src : Source) (whole l : Nat) : Nat :=
  if whole + 1 < l && src.byteIs (· == '.'.toUInt8) whole && src.byteIs Byte.isDigit (whole + 1) then
    src.digitsEnd (whole + 1) l
  else whole

theorem numberAt?_eq (src : Source) (i l : Nat) :
    src.numberAt? i l =
      if src.byteIs Byte.isDigit i && src.isWordStart i then
        if src.isWordEnd (src.fractionEnd (src.digitsEnd (i + 1) l) l)
            && src.isCodeSpan ⟨i, src.fractionEnd (src.digitsEnd (i + 1) l) l⟩ then
          some ⟨i, src.fractionEnd (src.digitsEnd (i + 1) l) l⟩
        else none
      else none :=
  rfl

/-- No receiver starts inside a word. -/
theorem Inner.receiverAt? (h : src.Inner i) : src.receiverAt? i l = none := by
  have hnumber : src.numberAt? i l = none := by
    have hstart : src.isWordStart i = false := by
      have hident : src.byteIs Byte.isIdent (i - 1) = true :=
        holds_of_imp (fun c => Cell.isIdent_of_isWordChar) h.before
      have hpos := h.pos
      simp only [isWordStart, hident, Bool.not_true, Bool.or_false, beq_eq_false_iff_ne]
      omega
    simp [numberAt?, hstart]
  have hcloser : src.isCloser i = false := by
    simp only [isCloser]
    rw [codeAt_of_isWordChar (by decide) h.here, codeAt_of_isWordChar (by decide) h.here,
      codeAt_of_isWordChar (by decide) h.here]
    rfl
  simp [Source.receiverAt?, h.wordAt?, hnumber, hcloser]

theorem receiverSendsFrom_of_le (h : l ≤ i) : src.receiverSendsFrom i l = [] := by
  rw [receiverSendsFrom, dif_neg (by omega)]

theorem receiverSendsFrom_of_none (h : src.receiverAt? i l = none) :
    src.receiverSendsFrom i l = src.receiverSendsFrom (i + 1) l := by
  conv_lhs => rw [receiverSendsFrom]
  split
  · split <;> simp_all
  · rw [receiverSendsFrom_of_le (by omega)]

theorem receiverSendsFrom_of_some {r : Receiver} {stop : Nat} (hlt : i < l)
    (h : src.receiverAt? i l = some (r, stop)) :
    src.receiverSendsFrom i l =
      (src.sendAfter? r stop l).toList ++ src.receiverSendsFrom stop l := by
  conv_lhs => rw [receiverSendsFrom, dif_pos hlt]
  split <;> simp_all

/-- The search for receivers passes over bytes where none starts. -/
theorem receiverSendsFrom_skip {j : Nat} (hij : i ≤ j)
    (h : ∀ k, i ≤ k → k < j → src.receiverAt? k l = none) :
    src.receiverSendsFrom i l = src.receiverSendsFrom j l := by
  induction j, hij using Nat.le_induction with
  | base => rfl
  | succ j hij ih =>
    rw [ih fun k hk hkj => h k hk (Nat.lt_succ_of_lt hkj),
      receiverSendsFrom_of_none (h j hij (Nat.lt_succ_self j))]

/-- It passes over a word that is none. -/
theorem receiverSendsFrom_add {k : Nat} (h : src.IsWord i k) (hnone : src.receiverAt? i l = none) :
    src.receiverSendsFrom i l = src.receiverSendsFrom (i + k) l := by
  refine receiverSendsFrom_skip (Nat.le_add_right i k) fun j hij hj => ?_
  rcases Nat.eq_or_lt_of_le hij with rfl | hlt
  · exact hnone
  · exact (h.inner (Span.mem_offsets.2 ⟨hlt, hj⟩)).receiverAt?

/-- No cascade continues inside a word. -/
theorem cascadeSendsAt_append {is js : List Nat}
    (h : ∀ k ∈ is, src.holds Cell.isWordChar k = true) :
    src.cascadeSendsAt l n (is ++ js) = src.cascadeSendsAt l n js := by
  induction is with
  | nil => rfl
  | cons i is ih =>
    rw [List.forall_mem_cons] at h
    have hsemi : src.codeAt i ';' = false := codeAt_of_isWordChar (by decide) h.1
    simp only [List.cons_append, cascadeSendsAt, nest_of_isWordChar h.1, hsemi, Bool.false_and,
      Bool.false_eq_true, if_false]
    exact ih h.2

end Source

namespace Alignment

variable {s t : Source} (A : Alignment s t) {i l : Nat} {r r' : Receiver} {sp : Span}

/-! ## Spelling -/

/-- No word is respelled after an identifier character. -/
theorem kept_of_isIdent_before (hi : A.mark i) (hlt : i < s.size)
    (h : s.byteIs Byte.isIdent (i - 1) = true) : A.Kept i := by
  rcases A.step hi hlt with hk | ⟨n, m, hw⟩
  · exact hk
  · have hpos := (A.pos hi).1
    have hleft := hw.old.left
    simp only [Source.isWordStart, h, Bool.not_true, Bool.or_false, beq_iff_eq] at hleft
    omega

/-- Identifier characters of which the first is kept are all kept, and spelled alike. -/
theorem slice_shift_of_isIdent {n : Nat} (hi : A.mark i) (hkept : A.Kept i)
    (h : ∀ k < n, s.byteIs Byte.isIdent (i + k) = true) :
    A.shift (i + n) = A.shift i + n ∧
      t.slice ⟨A.shift i, A.shift (i + n)⟩ = s.slice ⟨i, i + n⟩ := by
  obtain ⟨-, hshift, hcells⟩ := A.shift_add (n := n) hi fun k hk hmark => by
    rcases Nat.eq_zero_or_pos k with rfl | hpos
    · exact hkept
    · refine A.kept_of_isIdent_before hmark (Source.lt_size_of_holds (h k hk)) ?_
      rw [show i + k - 1 = i + (k - 1) by omega]
      exact h (k - 1) (by omega)
  refine ⟨hshift, ?_⟩
  rw [hshift]
  exact Source.slice_congr
    (fun k hk => Source.holds_of_imp (fun _ => Cell.isAscii_of_isIdent) (h k hk)) hcells

/-- A word that no colon follows is spelled alike when only keywords are respelled. -/
theorem slice_word_shift (hkey : A.keyword) (hi : A.mark i) (hl : A.mark l)
    (hw : s.wordAt? i l = some sp) (hcolon : s.codeAt sp.stop ':' = false) :
    t.slice (A.shiftSpan sp) = s.slice sp := by
  have hkept : A.Kept i := by
    obtain ⟨hlt, -⟩ := Source.wordAt?_eq_some hw
    have hsize := A.le_size hl
    rcases A.step hi (by omega) with hk | ⟨n, m, hresp⟩
    · exact hk
    · obtain rfl := hresp.old.eq_of_wordAt? (hresp.inside hl hlt) hw
      rw [(hresp.colon hkey).1] at hcolon
      simp at hcolon
  obtain ⟨-, -, -, rfl⟩ := Source.wordAt?_eq_some hw
  have hle := s.le_identEnd i l
  have hspell := A.slice_shift_of_isIdent (n := s.identEnd i l - i) hi hkept fun k hk =>
    Source.holds_of_lt_runEnd (i := i) (l := l) (by omega)
      (show i + k < s.identEnd i l by omega)
  rw [show i + (s.identEnd i l - i) = s.identEnd i l by omega] at hspell
  exact hspell.2

/-- Operators are spelled alike. -/
theorem slice_binary_shift (hi : A.mark i) (h : s.binaryAt? i l = some sp) :
    t.slice (A.shiftSpan sp) = s.slice sp := by
  have hle := s.le_runEnd (fun c => c.isCode && Byte.isBinary c.byte) i l
  simp only [Source.binaryAt?] at h
  split at h
  · obtain rfl := Option.some.inj h
    have hholds : ∀ k < s.runEnd (fun c => c.isCode && Byte.isBinary c.byte) i l - i,
        s.holds (fun c => c.isCode && Byte.isBinary c.byte) (i + k) = true :=
      fun k hk => Source.holds_of_lt_runEnd (i := i) (l := l) (by omega) (by omega)
    obtain ⟨-, hshift, hcells⟩ := A.shift_add hi fun k hk hmark =>
      A.kept_of_holds (fun _ => Cell.isBinary_of_isLetter) hmark (hholds k hk)
    have hslice := Source.slice_congr (fun k hk => Source.holds_of_imp (fun c hc => by
      rw [Bool.and_eq_true] at hc
      exact Cell.isAscii_of_isBinary hc.2) (hholds k hk)) hcells
    rw [← hshift, Nat.add_sub_cancel' hle] at hslice
    exact hslice
  · simp at h

/-! ## Receivers -/

theorem digitsEnd_shift (hi : A.mark i) (hl : A.mark l) :
    A.mark (s.digitsEnd i l) ∧ t.digitsEnd (A.shift i) (A.shift l) = A.shift (s.digitsEnd i l) :=
  A.runEnd_shift Cell.uniform_isDigit hi hl

theorem isPoint_of_isLetter {c : Cell} (h : c.isLetter = true) :
    (c.byte == '.'.toUInt8) = false := by
  have := Cell.byte_ne_of_isWordChar (Cell.isWordChar_of_isLetter h) (b := '.'.toUInt8) (by decide)
  simpa using this

theorem fractionEnd_shift (hi : A.mark i) (hl : A.mark l) :
    A.mark (s.fractionEnd i l) ∧
      t.fractionEnd (A.shift i) (A.shift l) = A.shift (s.fractionEnd i l) := by
  have hpoint : t.byteIs (· == '.'.toUInt8) (A.shift i) = s.byteIs (· == '.'.toUInt8) i :=
    A.holds_shift (.inl fun _ => isPoint_of_isLetter) hi
  simp only [Source.fractionEnd, hpoint]
  cases h : s.byteIs (· == '.'.toUInt8) i with
  | false => simpa using hi
  | true =>
    have hk := A.kept_of_holds (fun _ => isPoint_of_isLetter) hi h
    obtain ⟨hend, hend'⟩ := A.digitsEnd_shift hk.next hl
    simp only [← hk.shift_next, A.isDigit_shift hk.next, hend', A.shift_lt_iff hk.next hl]
    split
    · exact ⟨hend, rfl⟩
    · exact ⟨hi, rfl⟩

theorem numberAt?_shift (hi : A.mark i) (hl : A.mark l) :
    t.numberAt? (A.shift i) (A.shift l) = (s.numberAt? i l).map A.shiftSpan ∧
      ∀ number ∈ s.numberAt? i l, A.MarkSpan number := by
  rw [Source.numberAt?_eq, Source.numberAt?_eq, A.isDigit_shift hi, A.isWordStart_shift hi]
  split
  · next hif =>
    rw [Bool.and_eq_true] at hif
    have hrejects : ∀ c : Cell, c.isLetter = true → Byte.isDigit c.byte = false := fun c hc => by
      rw [Cell.isLetter, Bool.and_eq_true] at hc
      exact Cell.isDigit_of_isIdentStart hc.2
    have hk := A.kept_of_holds hrejects hi hif.1
    obtain ⟨hwhole, hwhole'⟩ := A.digitsEnd_shift hk.next hl
    obtain ⟨hstop, hstop'⟩ := A.fractionEnd_shift hwhole hl
    rw [← hk.shift_next, hwhole', hstop', A.isWordEnd_shift hstop, A.isCodeSpan_shift hi hstop]
    split
    · exact ⟨rfl, by simpa using ⟨hi, hstop⟩⟩
    · simp
  · simp

theorem isCloser_shift (hi : A.mark i) : t.isCloser (A.shift i) = s.isCloser i := by
  simp only [Source.isCloser]
  rw [A.codeAt_shift (by decide) hi, A.codeAt_shift (by decide) hi, A.codeAt_shift (by decide) hi]

theorem kept_of_isCloser (hi : A.mark i) (h : s.isCloser i = true) : A.Kept i := by
  simp only [Source.isCloser, Bool.or_eq_true] at h
  rcases h with (h | h) | h
  · exact A.kept_of_codeAt (by decide) hi h
  · exact A.kept_of_codeAt (by decide) hi h
  · exact A.kept_of_codeAt (by decide) hi h

/-- Receivers start and end at corresponding places. -/
theorem receiverAt?_shift (hi : A.mark i) (hl : A.mark l) :
    Option.Rel (fun a b => A.mark a.2 ∧ b.2 = A.shift a.2 ∧ (A.keyword → b.1 = a.1))
      (s.receiverAt? i l) (t.receiverAt? (A.shift i) (A.shift l)) := by
  simp only [Source.receiverAt?, A.wordAt?_shift hi hl]
  cases hw : s.wordAt? i l with
  | some word =>
    have hmark := (A.markSpan_of_wordAt? hi hl hw).2
    have hcolon := A.codeAt_shift (x := ':') (by decide) hmark
    simp only [Option.map_some, shiftSpan, hcolon]
    cases hc : s.codeAt word.stop ':' with
    | true => exact .none
    | false =>
      refine .some ⟨hmark, rfl, fun hkey => ?_⟩
      have hslice := A.slice_word_shift hkey hi hl hw hc
      simp only [shiftSpan] at hslice
      simp only [hslice]
  | none =>
    obtain ⟨hnumber, hmarks⟩ := A.numberAt?_shift hi hl
    simp only [Option.map_none, hnumber]
    cases hn : s.numberAt? i l with
    | some number => exact .some ⟨(hmarks number hn).2, rfl, fun _ => rfl⟩
    | none =>
      simp only [Option.map_none, A.isCloser_shift hi]
      cases hc : s.isCloser i with
      | true =>
        have hk := A.kept_of_isCloser hi hc
        exact .some ⟨hk.next, hk.shift_next.symm, fun _ => rfl⟩
      | false => exact .none

/-! ## Sends -/

/-- The sends `a` and `b` stand at corresponding places. -/
structure Moved (a b : Send) : Prop where
  kind : b.kind = a.kind
  span : b.span = A.shiftSpan a.span
  mark : A.MarkSpan a.span
  tokens : b.tokens = a.tokens
  receiver : A.keyword → b.receiver = a.receiver
  selector : A.keyword → b.selector = a.selector

theorem sendAfter?_shift (hi : A.mark i) (hl : A.mark l) (hr : A.keyword → r' = r) :
    Option.Rel A.Moved (s.sendAfter? r i l) (t.sendAfter? r' (A.shift i) (A.shift l)) := by
  obtain ⟨hstart, hstart'⟩ := A.skipGap_shift hi hl
  simp only [Source.sendAfter?, hstart', A.wordAt?_shift hstart hl]
  cases hw : s.wordAt? (s.skipGap i l) l with
  | some word =>
    have hmark := A.markSpan_of_wordAt? hstart hl hw
    have hcolon := A.codeAt_shift (x := ':') (by decide) hmark.2
    simp only [Option.map_some]
    rw [show (A.shiftSpan word).stop = A.shift word.stop from rfl, hcolon]
    cases hc : s.codeAt word.stop ':' with
    | true => exact .none
    | false =>
      exact .some ⟨rfl, rfl, hmark, rfl, hr, fun hkey => A.slice_word_shift hkey hstart hl hw hc⟩
  | none =>
    simp only [Option.map_none, A.binaryAt?_shift hstart hl]
    cases hb : s.binaryAt? (s.skipGap i l) l with
    | some token =>
      exact .some ⟨rfl, rfl, A.markSpan_of_binaryAt? hstart hl hb, rfl, hr,
        fun _ => A.slice_binary_shift hstart hb⟩
    | none => exact .none

theorem forall₂_toList {α β : Type} {R : α → β → Prop} {a : Option α} {b : Option β}
    (h : Option.Rel R a b) : List.Forall₂ R a.toList b.toList := by
  cases h with
  | some h => exact .cons h .nil
  | none => exact .nil

theorem receiverSendsFrom_shift (hi : A.mark i) (hl : A.mark l) :
    List.Forall₂ A.Moved (s.receiverSendsFrom i l)
      (t.receiverSendsFrom (A.shift i) (A.shift l)) := by
  induction hd : l - i using Nat.strongRecOn generalizing i with
  | ind d ih =>
    rcases Nat.lt_or_ge i l with hlt | hle
    · have hlt' := (A.shift_lt_iff hi hl).2 hlt
      have hsize := A.le_size hl
      cases hs : s.receiverAt? i l with
      | none =>
        have hrel := A.receiverAt?_shift hi hl
        rw [hs] at hrel
        cases ht : t.receiverAt? (A.shift i) (A.shift l) with
        | some _ => rw [ht] at hrel; cases hrel
        | none =>
          rcases A.step hi (by omega) with hk | ⟨n, m, hw⟩
          · rw [Source.receiverSendsFrom_of_none hs, Source.receiverSendsFrom_of_none ht,
              ← hk.shift_next]
            exact ih (l - (i + 1)) (by omega) hk.next rfl
          · have hpos := hw.old.pos
            rw [Source.receiverSendsFrom_add hw.old hs, Source.receiverSendsFrom_add hw.new ht,
              ← hw.shift_next]
            exact ih (l - (i + n)) (by omega) hw.next rfl
      | some found =>
        obtain ⟨r, stop⟩ := found
        have hrel := A.receiverAt?_shift hi hl
        rw [hs] at hrel
        cases ht : t.receiverAt? (A.shift i) (A.shift l) with
        | none => rw [ht] at hrel; cases hrel
        | some found' =>
          obtain ⟨r', stop'⟩ := found'
          rw [ht] at hrel
          obtain ⟨hmark, rfl, hr⟩ : A.mark stop ∧ stop' = A.shift stop ∧ (A.keyword → r' = r) := by
            cases hrel with
            | some h => exact h
          have hprogress := s.receiverAt?_lt hs
          rw [Source.receiverSendsFrom_of_some hlt hs, Source.receiverSendsFrom_of_some hlt' ht]
          exact List.rel_append (forall₂_toList (A.sendAfter?_shift hmark hl hr))
            (ih (l - stop) (by omega) hmark rfl)
    · have hle' := (A.shift_le_iff hl hi).2 hle
      rw [Source.receiverSendsFrom_of_le hle, Source.receiverSendsFrom_of_le hle']
      exact .nil

theorem cascadeSendsAt_shift (n : Nesting) (hi : A.mark i) (hl : A.mark l) :
    List.Forall₂ A.Moved (s.cascadeSendsAt l n (Span.offsets ⟨i, l⟩))
      (t.cascadeSendsAt (A.shift l) n (Span.offsets ⟨A.shift i, A.shift l⟩)) := by
  rcases Nat.lt_or_ge l i with hlt | hle
  · have hlt' := (A.shift_lt_iff hl hi).2 hlt
    rw [Span.offsets_nil (by omega), Span.offsets_nil (by omega)]
    exact .nil
  · refine A.induct (motive := fun i => ∀ n, List.Forall₂ A.Moved
      (s.cascadeSendsAt l n (Span.offsets ⟨i, l⟩))
      (t.cascadeSendsAt (A.shift l) n (Span.offsets ⟨A.shift i, A.shift l⟩)))
      hl ?stop ?kept ?word hi hle n
    case stop =>
      intro n
      rw [Span.offsets_nil (Nat.le_refl _), Span.offsets_nil (Nat.le_refl _)]
      exact .nil
    case kept =>
      intro i hi hlt hk ih n
      rw [Span.offsets_cons hlt, Span.offsets_cons ((A.shift_lt_iff hi hl).2 hlt),
        ← hk.shift_next]
      simp only [Source.cascadeSendsAt, A.nest_shift hk]
      rw [A.codeAt_shift (by decide) hi, ← hk.shift_next]
      by_cases hif : (s.codeAt i ';' && (s.nest n i).isTopLevel) = true
      · rw [if_pos hif, if_pos hif]
        exact List.rel_append (forall₂_toList (A.sendAfter?_shift hk.next hl fun _ => rfl)) (ih _)
      · rw [if_neg hif, if_neg hif]
        exact ih _
    case word =>
      intro i k m hi hk hw ih n
      obtain ⟨h₁, h₂⟩ := A.offsets_word hl hk hw
      have hpos := hw.old.pos
      have hpos' := hw.new.pos
      rw [← Span.offsets_cons (show i < i + k by omega)] at h₁
      rw [← Span.offsets_cons (show A.shift i < A.shift i + m by omega)] at h₂
      rw [h₁, h₂, Source.cascadeSendsAt_append (List.all_eq_true.1 (hw.old.all_holds fun _ => id)),
        Source.cascadeSendsAt_append (List.all_eq_true.1 (hw.new.all_holds fun _ => id))]
      exact ih n

/-- The unary and binary sends of aligned sources stand at corresponding places. -/
theorem simpleSends_shift :
    List.Forall₂ A.Moved (s.simpleSends s.sendRegion) (t.simpleSends t.sendRegion) := by
  obtain ⟨hmark, hregion⟩ := A.statementRegion_shift
  have hspan : t.sendRegion.span = A.shiftSpan s.sendRegion.span := hregion
  simp only [Source.simpleSends]
  refine List.rel_filter (R := A.Moved) (fun a b hab => ?_) (List.rel_append ?_ ?_)
  · simp only [hab.span, A.admits_shift hab.mark]
  · rw [hspan]
    exact A.receiverSendsFrom_shift hmark.1 hmark.2
  · rw [hspan]
    exact A.cascadeSendsAt_shift .empty hmark.1 hmark.2

end Alignment

end MethodBrowser
