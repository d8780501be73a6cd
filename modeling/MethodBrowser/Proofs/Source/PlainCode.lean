import MethodBrowser.Proofs.Send.Recognition
import MethodBrowser.Proofs.Send.SelfSend

/-!
# Plain code

Generated code consists of words, white space and a few marks. Its characters open no literal and no
comment, so each stands in the text as one cell of code (`Source.Reads`), whatever surrounds it.

Words, white space and colons are also calm (`Source.Calm`): they open and close no group, and they end
neither a statement nor a keyword message.
-/

namespace MethodBrowser

/-- What is checked for each character of a list. -/
theorem forall_of_all {p : Char → Prop} [DecidablePred p] {cs : List Char}
    (h : (cs.all fun c => decide (p c)) = true) : ∀ c ∈ cs, p c :=
  fun c hc => of_decide_eq_true (List.all_eq_true.1 h c hc)

namespace Source

variable {src : Source} {i j k l : Nat} {v w r : List Char} {n : Nesting} {x : Char}

/-! ## Characters as code -/

/-- The plain characters `w` stand at `i`, as code. -/
structure Reads (src : Source) (i : Nat) (w : List Char) : Prop where
  plain : ∀ c ∈ w, IsPlain c
  cell : ∀ k c, w[k]? = some c → src.cells[i + k]? = some ⟨c.toUInt8, .code⟩

theorem Cut.reads {l : List Char} (h : src.Cut l (w ++ r)) (hw : ∀ c ∈ w, IsPlain c) :
    src.Reads (String.utf8Len l) w := by
  refine ⟨hw, fun k c hk => ?_⟩
  have hlen := utf8Len_of_ascii fun c hc => (hw c hc).1
  obtain ⟨hlt, rfl⟩ := List.getElem?_eq_some_iff.1 hk
  rw [h.window (by omega), getElem?_ofChars, classify_of_plain hw, List.getElem?_map, hk]
  rfl

namespace Reads

theorem left (h : src.Reads i (w ++ v)) : src.Reads i w :=
  ⟨fun c hc => h.plain c (List.mem_append_left _ hc), fun k c hk => h.cell k c
    (by rw [List.getElem?_append_left (List.getElem?_eq_some_iff.1 hk).1, hk])⟩

theorem right (h : src.Reads i (w ++ v)) : src.Reads (i + w.length) v :=
  ⟨fun c hc => h.plain c (List.mem_append_right _ hc), fun k c hk => by
    rw [Nat.add_assoc]
    exact h.cell _ c (by rw [List.getElem?_append_right (by omega), Nat.add_sub_cancel_left, hk])⟩

theorem tail (h : src.Reads i (x :: w)) : src.Reads (i + 1) w := right (w := [x]) h

theorem head (h : src.Reads i (x :: w)) : src.codeAt i x = true := by
  rw [codeAt, holds, ← Nat.add_zero i, h.cell 0 x rfl]
  simp [Cell.isCodeChar, Cell.isCode]

theorem holds {p : Cell → Bool} (h : src.Reads i w)
    (hp : ∀ c ∈ w, p ⟨c.toUInt8, .code⟩ = true) (hik : i ≤ k) (hk : k < i + w.length) :
    src.holds p k = true := by
  have hlt : k - i < w.length := by omega
  have hcell := h.cell (k - i) w[k - i] (List.getElem?_eq_getElem hlt)
  rw [Nat.add_sub_cancel' hik] at hcell
  rw [Source.holds, hcell, Option.any_some]
  exact hp _ (List.getElem_mem hlt)

theorem slice (h : src.Reads i w) : src.slice ⟨i, i + w.length⟩ = String.ofList w :=
  slice_eq_of_bytes (fun c hc => (h.plain c hc).1) fun k hk => by
    rw [h.cell k _ (List.getElem?_eq_getElem hk)]
    rfl

/-- An identifier is a word if no word goes on into it or out of it. -/
theorem isWord (h : src.Reads i w) (hw : isIdentifier w = true) (hstart : src.isWordStart i = true)
    (hend : src.isWordEnd (i + w.length) = true) : src.IsWord i w.length := by
  have hpos := length_pos_of_isIdentifier hw
  have hrest : ∀ c ∈ w, Cell.isWordChar ⟨c.toUInt8, .code⟩ = true := fun c hc => by
    simp [Cell.isWordChar, Cell.isCode, Byte.isIdent, (h.plain c hc).1.ofUInt8,
      isIdentRest_of_isIdentifier hw c hc]
  refine ⟨hpos, ?_, fun k hk => h.holds hrest (Nat.le_add_right i k) (by omega), hstart, hend⟩
  rw [← Nat.add_zero i, Source.holds, h.cell 0 _ (List.getElem?_eq_getElem hpos), Option.any_some]
  have hletter : isIdentStart w[0] = true := isIdentStart_of_isIdentifier hw hpos
  simp [Cell.isLetter, Cell.isCode, Byte.isIdentStart, (h.plain _ (List.getElem_mem hpos)).1.ofUInt8,
    hletter]

end Reads

theorem isGap_of_space (h : src.codeAt i ' ' = true) : src.holds Cell.isGap i = true := by
  refine holds_of_imp (fun c hc => ?_) h
  rw [Cell.isCodeChar, Bool.and_eq_true, beq_iff_eq] at hc
  rw [Cell.isGap, hc.1, hc.2]
  decide

theorem isWordEnd_of_codeAt (hx : Byte.isIdent x.toUInt8 = false) (h : src.codeAt i x = true) :
    src.isWordEnd i = true := by
  have hident : src.byteIs Byte.isIdent i = false := holds_eq_of (fun c hc => by
    rw [Cell.isCodeChar, Bool.and_eq_true, beq_iff_eq] at hc
    rw [hc.2, hx]) h
  rw [isWordEnd, hident]
  rfl

theorem isWordStart_of_codeAt (hx : Byte.isIdent x.toUInt8 = false) (h : src.codeAt i x = true) :
    src.isWordStart (i + 1) = true := by
  have hend := isWordEnd_of_codeAt hx h
  rw [isWordEnd] at hend
  rw [isWordStart, Nat.add_sub_cancel, hend, Bool.or_true]

/-- White space and comments are passed over up to the next code. -/
theorem Idle.skipTrivia (h : src.Idle i j) (hij : i ≤ j) (hx : Byte.isBlank x.toUInt8 = false)
    (hcode : src.codeAt j x = true) : src.skipTrivia i = j := by
  have hsize := lt_size_of_holds hcode
  refine runEnd_eq hij (Nat.le_of_lt hsize) (fun k hik hkj => ?_) (holds_eq_of (fun c hc => ?_) hcode)
  · obtain ⟨cell, hcell⟩ : ∃ cell, src.cells[k]? = some cell :=
      Option.isSome_iff_exists.1 (by simp only [size] at hsize; simp; omega)
    have hidle := h k hik hkj
    rw [isSignificant, Source.holds, hcell, Option.any_some] at hidle
    rw [Source.holds, hcell, Option.any_some]
    rcases isBlank_or_comment hidle with ⟨-, hblank⟩ | hcomment
    · rw [hblank, Bool.or_true]
    · rw [Cell.isCode, hcomment]
      rfl
  · rw [Cell.isCodeChar, Bool.and_eq_true, beq_iff_eq] at hc
    rw [hc.1, hc.2, hx]
    rfl

theorem IsWord.isWordChar {m : Nat} (h : src.IsWord i m) (hik : i ≤ k) (hk : k < i + m) :
    src.holds Cell.isWordChar k = true := by
  obtain ⟨d, rfl⟩ := Nat.exists_eq_add_of_le hik
  exact h.chars d (by omega)

/-! ## Calm code -/

/-- Part of a word, white space or a colon. -/
def Calm (src : Source) (k : Nat) : Prop :=
  src.holds Cell.isWordChar k = true ∨ src.holds Cell.isGap k = true ∨ src.codeAt k ':' = true

theorem Calm.codeAt (h : src.Calm k) (hident : Byte.isIdent x.toUInt8 = false)
    (hblank : Byte.isBlank x.toUInt8 = false) (hcolon : ':'.toUInt8 ≠ x.toUInt8) :
    src.codeAt k x = false := by
  rcases h with h | h | h
  · exact codeAt_of_isWordChar hident h
  · by_contra hcode
    rw [not_isGap_of_codeAt hblank (by simpa using hcode)] at h
    simp at h
  · exact codeAt_ne hcolon h

theorem Calm.step? (h : src.Calm k) : ∃ b, src.codeByte? k = some b ∧ ∀ n : Nesting, n.step? b = some n := by
  rcases h with h | h | h
  · obtain ⟨b, hb, hident⟩ := codeByte?_of_isWordChar h
    exact ⟨b, hb, Nesting.step?_of_isIdent hident⟩
  · obtain ⟨⟨b, kind⟩, hcell, hgap⟩ := Option.any_eq_true _ _ |>.1 h
    rw [Cell.isGap, Bool.and_eq_true, Cell.isCode, beq_iff_eq] at hgap
    obtain ⟨rfl, hblank⟩ := hgap
    exact ⟨b, by simp [codeByte?, hcell], Nesting.step?_of_isBlank hblank⟩
  · exact ⟨_, codeByte?_of_codeAt h, fun _ => rfl⟩

theorem Calm.nest (h : src.Calm k) : src.nest n k = n := by
  obtain ⟨b, hb, hstep⟩ := h.step?
  simp [Source.nest, hb, Nesting.step, hstep]

theorem nestFrom_of_steady (hij : i ≤ j) (h : ∀ k, i ≤ k → k < j → ∀ n : Nesting, src.nest n k = n) :
    src.nestFrom n i j = n := by
  induction j, hij using Nat.le_induction with
  | base => exact nestFrom_self
  | succ j hij ih =>
    rw [nestFrom_succ hij, ih fun k hik hkj => h k hik (by omega), h j hij (by omega)]

/-- Calm code ends no keyword message. -/
theorem Calm.endsRun (h : src.Calm k) : src.endsRun k = false := by
  rw [Source.endsRun, isTerminator, h.codeAt (by decide) (by decide) (by decide),
    h.codeAt (by decide) (by decide) (by decide), h.codeAt (by decide) (by decide) (by decide)]
  rfl

/-- The words, spaces and colons of a text are calm. -/
theorem Reads.calm (h : src.Reads i w) (hw : ∀ c ∈ w, isIdentRest c = true ∨ c = ' ' ∨ c = ':')
    (hik : i ≤ k) (hk : k < i + w.length) : src.Calm k := by
  have hcalm : src.holds (fun c => c.isWordChar || (c.isGap || c.isCodeChar ':')) k = true := by
    refine h.holds (fun c hc => ?_) hik hk
    rcases hw c hc with hident | rfl | rfl
    · simp [Cell.isWordChar, Cell.isCode, Byte.isIdent, (h.plain c hc).1.ofUInt8, hident]
    · decide
    · decide
  obtain ⟨cell, hcell, hsome⟩ := Option.any_eq_true _ _ |>.1 hcalm
  rw [Bool.or_eq_true, Bool.or_eq_true] at hsome
  simp only [Calm, Source.codeAt, Source.holds, hcell, Option.any_some]
  exact hsome

end Source

end MethodBrowser
