import Mathlib.Tactic.Common
import MethodBrowser.Source.Preamble

/-!
# Aligned sources

Two sources are *aligned* when one arises from the other by spelling some words differently. Each
offset outside these words has a counterpart, and the cell there is the same. This module says
what that means and transports the elementary readers along it; every scanner is made of these.

**The two steps.** From an offset with a counterpart there are two ways on. Either the next cell
is kept, or a whole word is respelled: it starts with a letter, goes on with identifier characters
and is bounded on both sides, in both sources. The offsets inside a respelled word have no
counterpart.

**What a reader may ask.** A predicate on cells is *uniform* when it rejects all letters or accepts
all characters of words. A run of cells that satisfy a uniform predicate never ends inside a
word, so its end has a counterpart (`Alignment.runEnd_shift`). Nearly all questions of the scanners
are uniform. The exception is whether a digit stands before a period; so statements are kept only
when the respelled words leave the periods alone (`Alignment.Steady`), as they do when a colon follows
each of them (`Alignment.keyword`).
-/

namespace MethodBrowser

/-! ## Letters and digits by number -/

theorem isAlpha_iff {c : Char} :
    c.isAlpha = true ↔ 65 ≤ c.toNat ∧ c.toNat ≤ 90 ∨ 97 ≤ c.toNat ∧ c.toNat ≤ 122 := by
  change (decide (c.val ≥ 65 ∧ c.val ≤ 90) || (decide (c.val ≥ 97) && decide (c.val ≤ 122))) = true
    ↔ _
  simp only [Bool.or_eq_true, Bool.and_eq_true, decide_eq_true_eq, ge_iff_le,
    UInt32.le_iff_toNat_le]
  rfl

theorem isDigit_iff {c : Char} : c.isDigit = true ↔ 48 ≤ c.toNat ∧ c.toNat ≤ 57 := by
  simp only [Char.isDigit, Bool.and_eq_true, decide_eq_true_eq, ge_iff_le, UInt32.le_iff_toNat_le]
  rfl

/-! ## Questions about cells -/

namespace Cell

/-- Code that may start a word. -/
def isLetter (c : Cell) : Bool := c.isCode && Byte.isIdentStart c.byte

/-- Code that may stand in a word. -/
def isWordChar (c : Cell) : Bool := c.isCode && Byte.isIdent c.byte

/-- The predicate does not tell letters apart. -/
def Blind (p : Cell → Bool) : Prop :=
  (∀ c : Cell, c.isLetter → p c = false) ∨ ∀ c : Cell, c.isLetter → p c = true

/-- The predicate rejects all letters or accepts all characters of words. -/
def Uniform (p : Cell → Bool) : Prop :=
  (∀ c : Cell, c.isLetter → p c = false) ∨ ∀ c : Cell, c.isWordChar → p c = true

theorem isIdent_of_isIdentStart {b : UInt8} (h : Byte.isIdentStart b = true) :
    Byte.isIdent b = true := by
  simp only [Byte.isIdentStart, Byte.isIdent, isIdentStart, isIdentRest, Char.isAlphanum,
    Bool.or_eq_true] at h ⊢
  tauto

theorem isWordChar_of_isLetter {c : Cell} (h : c.isLetter = true) : c.isWordChar = true := by
  simp only [isLetter, isWordChar, Bool.and_eq_true] at h ⊢
  exact ⟨h.1, isIdent_of_isIdentStart h.2⟩

theorem Uniform.blind {p : Cell → Bool} (hp : Uniform p) : Blind p :=
  hp.imp_right fun h c hc => h c (isWordChar_of_isLetter hc)

theorem Blind.of_not {p : Cell → Bool} (hp : Blind fun c => !p c) : Blind p :=
  hp.symm.imp (fun h c hc => by simpa using h c hc) fun h c hc => by simpa using h c hc

/-! ### The questions that scanners ask -/

theorem blind_isLetter : Blind isLetter := .inr fun _ h => h

theorem not_isLetter_of_byte {c : Cell} (h : Byte.isIdentStart c.byte = false) :
    ¬c.isLetter = true := by
  simp [isLetter, h]

theorem isCodeChar_of_isLetter {x : Char} (h : Byte.isIdentStart x.toUInt8 = false) {c : Cell}
    (hc : c.isLetter = true) : c.isCodeChar x = false := by
  by_contra hne
  simp only [isCodeChar, Bool.not_eq_false, Bool.and_eq_true, beq_iff_eq] at hne
  exact not_isLetter_of_byte (hne.2 ▸ h) hc

theorem uniform_isCodeChar {x : Char} (h : Byte.isIdentStart x.toUInt8 = false) :
    Uniform (·.isCodeChar x) :=
  .inl fun _ hc => isCodeChar_of_isLetter h hc

theorem uniform_not_isCodeChar {x : Char} (h : Byte.isIdent x.toUInt8 = false) :
    Uniform (fun c => !c.isCodeChar x) := by
  refine .inr fun c hc => ?_
  simp only [isWordChar, Bool.and_eq_true] at hc
  by_contra hne
  simp only [isCodeChar, Bool.not_eq_true', Bool.not_eq_false, Bool.and_eq_true,
    beq_iff_eq] at hne
  rw [hne.2, h] at hc
  simp at hc

theorem isIdent_of_isBlank {b : UInt8} (h : Byte.isBlank b = true) : Byte.isIdent b = false := by
  simp only [Byte.isBlank, Bool.or_eq_true, beq_iff_eq] at h
  rcases h with (((rfl | rfl) | rfl) | rfl) | rfl <;> decide

theorem isBlank_eq_false_of_isIdent {b : UInt8} (h : Byte.isIdent b = true) :
    Byte.isBlank b = false := by
  by_contra hne
  rw [isIdent_of_isBlank (by simpa using hne)] at h
  simp at h

theorem isBlank_eq_false_of_isLetter {c : Cell} (h : c.isLetter = true) :
    Byte.isBlank c.byte = false := by
  rw [isLetter, Bool.and_eq_true] at h
  exact isBlank_eq_false_of_isIdent (isIdent_of_isIdentStart h.2)

theorem uniform_isGap : Uniform isGap :=
  .inl fun c hc => by simp [isGap, isBlank_eq_false_of_isLetter hc]

theorem kind_of_isLetter {c : Cell} (h : c.isLetter = true) : c.kind = .code := by
  simp only [isLetter, isCode, Bool.and_eq_true, beq_iff_eq] at h
  exact h.1

theorem uniform_not_isSignificant : Uniform (fun c => !c.isSignificant) :=
  .inl fun c hc => by
    simp [isSignificant, kind_of_isLetter hc, isBlank_eq_false_of_isLetter hc]

theorem uniform_isCode : Uniform isCode :=
  .inr fun c hc => by simp only [isWordChar, Bool.and_eq_true] at hc; exact hc.1

theorem isIdent_of_isWordChar {c : Cell} (h : c.isWordChar = true) :
    Byte.isIdent c.byte = true := by
  simp only [isWordChar, Bool.and_eq_true] at h
  exact h.2

theorem isSignificant_of_isWordChar {c : Cell} (h : c.isWordChar = true) :
    c.isSignificant = true := by
  rw [isWordChar, isCode, Bool.and_eq_true, beq_iff_eq] at h
  simp [isSignificant, h.1, isBlank_eq_false_of_isIdent h.2]

theorem uniform_isIdent : Uniform (fun c => Byte.isIdent c.byte) :=
  .inr fun _ => isIdent_of_isWordChar

/-- A character that identifiers do not contain is found in no word. -/
theorem byte_ne_of_isWordChar {c : Cell} (h : c.isWordChar = true) {b : UInt8}
    (hb : Byte.isIdent b = false) : c.byte ≠ b := by
  rintro rfl
  rw [isIdent_of_isWordChar h] at hb
  simp at hb

theorem isBinary_eq_false {b : UInt8} (h : Byte.isIdentStart b = true) :
    Byte.isBinary b = false := by
  by_contra hne
  simp only [Byte.isBinary, isBinaryChar, binaryChars, Bool.not_eq_false, List.contains_eq_mem,
    decide_eq_true_eq, List.mem_cons, List.not_mem_nil, or_false] at hne
  simp only [Byte.isIdentStart] at h
  revert h
  rcases hne with h | h | h | h | h | h | h | h | h | h | h | h | h | h <;> rw [h] <;> decide

theorem isDigit_of_isIdentStart {c : Char} (h : isIdentStart c = true) : c.isDigit = false := by
  simp only [isIdentStart, Bool.or_eq_true, beq_iff_eq, isAlpha_iff] at h
  rcases h with h | rfl
  · rw [Bool.eq_false_iff, ne_eq, isDigit_iff]
    omega
  · decide

theorem uniform_isDigit : Uniform (fun c => Byte.isDigit c.byte) :=
  .inl fun c hc => by
    simp only [isLetter, Bool.and_eq_true] at hc
    exact isDigit_of_isIdentStart hc.2

end Cell

/-! ## Reading one source -/

namespace Span

theorem offsets_cons {a b : Nat} (h : a < b) : offsets ⟨a, b⟩ = a :: offsets ⟨a + 1, b⟩ := by
  simp only [offsets, size]
  rw [show b - a = (b - (a + 1)) + 1 by omega, List.range'_succ]

theorem offsets_nil {a b : Nat} (h : b ≤ a) : offsets ⟨a, b⟩ = [] := by
  simp [offsets, size, h]

theorem offsets_append {a b c : Nat} (hab : a ≤ b) (hbc : b ≤ c) :
    offsets ⟨a, c⟩ = offsets ⟨a, b⟩ ++ offsets ⟨b, c⟩ := by
  have h := List.range'_append_1 (s := a) (m := b - a) (n := c - b)
  simp only [offsets, size]
  rw [show a + (b - a) = b by omega, show b - a + (c - b) = c - a by omega] at h
  exact h.symm

theorem le_iff {a b : Span} :
    a.le b = true ↔ a.start < b.start ∨ a.start = b.start ∧ a.stop ≤ b.stop := by
  simp only [le, compare, compareOfLessAndEq]
  split
  · simp [*]
  · split
    · split
      · simp; omega
      · split <;> simp <;> omega
    · simp; omega

/-- What is sorted by its spans is in the order of its spans. -/
theorem pairwise_mergeSort {α : Type} (f : α → Span) (as : List α) :
    (as.mergeSort fun a b => (f a).le (f b)).Pairwise fun a b => (f a).le (f b) = true := by
  refine List.pairwise_mergeSort ?_ ?_ as
  · intro a b c hab hbc
    rw [le_iff] at hab hbc ⊢
    omega
  · intro a b
    rw [Bool.or_eq_true, le_iff, le_iff]
    omega

end Span

namespace Source

variable {src : Source} {p : Cell → Bool} {i l n : Nat}

/-- The `n` cells from `i` on are a word: code that no identifier character extends. -/
structure IsWord (src : Source) (i n : Nat) : Prop where
  pos : 0 < n
  letter : src.holds Cell.isLetter i = true
  chars : ∀ k < n, src.holds Cell.isWordChar (i + k) = true
  left : src.isWordStart i = true
  right : src.isWordEnd (i + n) = true

theorem IsWord.last (h : src.IsWord i n) : src.holds Cell.isWordChar (i + n - 1) = true := by
  have hpos := h.pos
  have := h.chars (n - 1) (by omega)
  rwa [show i + (n - 1) = i + n - 1 by omega] at this

/-- The offset is inside a word. -/
structure Inner (src : Source) (k : Nat) : Prop where
  pos : 0 < k
  before : src.holds Cell.isWordChar (k - 1) = true
  here : src.holds Cell.isWordChar k = true

theorem IsWord.inner (h : src.IsWord i n) {k : Nat} (hk : k ∈ Span.offsets ⟨i + 1, i + n⟩) :
    src.Inner k := by
  rw [Span.mem_offsets] at hk
  obtain ⟨hlo, hhi⟩ : i + 1 ≤ k ∧ k < i + n := hk
  refine ⟨by omega, ?_, ?_⟩
  · rw [show k - 1 = i + (k - 1 - i) by omega]
    exact h.chars _ (by omega)
  · rw [show k = i + (k - i) by omega]
    exact h.chars _ (by omega)

theorem IsWord.filterMap_inner {α : Type} (h : src.IsWord i n) {f : Nat → Option α}
    (hf : ∀ k, src.Inner k → f k = none) :
    (Span.offsets ⟨i + 1, i + n⟩).filterMap f = [] :=
  List.filterMap_eq_nil_iff.2 fun k hk => hf k (h.inner hk)

theorem holds_of_size_le (h : src.size ≤ i) : src.holds p i = false := by
  simp only [holds, size] at h ⊢
  simp [h]

theorem lt_size_of_holds (h : src.holds p i = true) : i < src.size := by
  by_contra hge
  rw [holds_of_size_le (by omega)] at h
  simp at h

theorem holds_congr {c d : Option Cell} (h : c = d) : c.any p = d.any p := by rw [h]

theorem holds_of_imp {q : Cell → Bool} (hpq : ∀ c, p c = true → q c = true)
    (h : src.holds p i = true) : src.holds q i = true := by
  simp only [holds, Option.any_eq_true] at h ⊢
  obtain ⟨c, hc, hp⟩ := h
  exact ⟨c, hc, hpq c hp⟩

/-- A predicate has the value `b` at a cell that is known to satisfy `q`. -/
theorem holds_eq_of {q : Cell → Bool} {b : Bool} (hp : ∀ c : Cell, q c = true → p c = b)
    (h : src.holds q i = true) : src.holds p i = b := by
  simp only [holds, Option.any_eq_true] at h ⊢
  obtain ⟨c, hc, hq⟩ := h
  simp [hc, hp c hq]

theorem holds_and {q : Cell → Bool} (hp : src.holds p i = true) (hq : src.holds q i = true) :
    src.holds (fun c => p c && q c) i = true := by
  rw [holds, Option.any_eq_true] at hp ⊢
  obtain ⟨c, hc, hpc⟩ := hp
  rw [holds, hc, Option.any_some] at hq
  exact ⟨c, hc, by rw [hpc, hq]; rfl⟩

theorem IsWord.all_holds (h : src.IsWord i n) (hp : ∀ c : Cell, c.isWordChar → p c = true) :
    (Span.offsets ⟨i, i + n⟩).all (src.holds p) = true := by
  rw [List.all_eq_true]
  intro k hk
  rw [Span.mem_offsets] at hk
  obtain ⟨hlo, hhi⟩ : i ≤ k ∧ k < i + n := hk
  rw [show k = i + (k - i) by omega]
  exact holds_eq_of hp (h.chars _ (by omega))

theorem runEnd_of_le (h : l ≤ i) : src.runEnd p i l = i := by
  rw [runEnd, if_neg (by omega)]

theorem runEnd_of_not_holds (h : src.holds p i = false) : src.runEnd p i l = i := by
  rw [runEnd]
  simp [h]

theorem runEnd_of_holds (hlt : i < l) (h : src.holds p i = true) :
    src.runEnd p i l = src.runEnd p (i + 1) l := by
  conv_lhs => rw [runEnd, if_pos hlt, if_pos h]

theorem holds_tail (h : ∀ k < n + 1, src.holds p (i + k) = true) :
    ∀ k < n, src.holds p (i + 1 + k) = true := by
  intro k hk
  rw [show i + 1 + k = i + (k + 1) by omega]
  exact h (k + 1) (by omega)

/-- A run passes over cells that satisfy its predicate. -/
theorem runEnd_add (hn : i + n ≤ l) (h : ∀ k < n, src.holds p (i + k) = true) :
    src.runEnd p i l = src.runEnd p (i + n) l := by
  induction n generalizing i with
  | zero => rfl
  | succ n ih =>
    have h₀ : src.holds p i = true := h 0 (by omega)
    rw [runEnd_of_holds (by omega) h₀, ih (by omega) (holds_tail h),
      show i + 1 + n = i + (n + 1) by omega]

/-- All cells of a run satisfy its predicate. -/
theorem holds_of_lt_runEnd {k : Nat} (hik : i ≤ k) (hk : k < src.runEnd p i l) :
    src.holds p k = true := by
  fun_induction runEnd src p i l with
  | case1 i hlt hp ih =>
    rcases Nat.eq_or_lt_of_le hik with rfl | hlt'
    · exact hp
    · exact ih hlt' hk
  | case2 => omega
  | case3 => omega

theorem runStart_of_le (h : i ≤ l) : src.runStart p i l = i := by
  rw [runStart, if_neg (by omega)]

theorem runStart_of_not_holds (h : src.holds p (i - 1) = false) : src.runStart p i l = i := by
  rw [runStart]
  simp [h]

theorem runStart_of_holds (hlt : l < i) (h : src.holds p (i - 1) = true) :
    src.runStart p i l = src.runStart p (i - 1) l := by
  conv_lhs => rw [runStart, if_pos hlt, if_pos h]

theorem holds_of_runStart_le {k : Nat} (hk : src.runStart p i l ≤ k) (hki : k < i) :
    src.holds p k = true := by
  fun_induction runStart src p i l with
  | case1 i hlt hp ih =>
    rcases Nat.eq_or_lt_of_le (Nat.le_sub_one_of_lt hki) with rfl | hlt'
    · exact hp
    · exact ih hk hlt'
  | case2 => omega
  | case3 => omega

end Source

/-! ## Alignments -/

/-- The cell at `i` is the same in both sources. -/
structure Kept (s t : Source) (mark : Nat → Prop) (shift : Nat → Nat) (i : Nat) : Prop where
  cell : t.cells[shift i]? = s.cells[i]?
  next : mark (i + 1)
  shift_next : shift (i + 1) = shift i + 1

/-- The word of `n` cells at `i` is spelled with `m` cells in the other source. -/
structure Respelled (s t : Source) (mark : Nat → Prop) (shift : Nat → Nat) (keyword : Prop)
    (i n m : Nat) : Prop where
  old : s.IsWord i n
  new : t.IsWord (shift i) m
  next : mark (i + n)
  shift_next : shift (i + n) = shift i + m
  inside : ∀ {k}, mark k → i < k → i + n ≤ k
  colon : keyword → s.codeAt (i + n) ':' = true ∧ t.codeAt (shift i + m) ':' = true

/-- A correspondence between the offsets of two sources, from the start of the body on. -/
structure Alignment (s t : Source) where
  /-- The offset has a counterpart. -/
  mark : Nat → Prop
  /-- The counterpart of an offset. -/
  shift : Nat → Nat
  /-- A colon follows each respelled word. -/
  keyword : Prop
  mark_bodyStart : mark s.bodyStart
  shift_bodyStart : shift s.bodyStart = t.bodyStart
  mark_size : mark s.size
  shift_size : shift s.size = t.size
  bodyStart_le : ∀ {i}, mark i → s.bodyStart ≤ i
  le_size : ∀ {i}, mark i → i ≤ s.size
  shift_lt_iff : ∀ {i j}, mark i → mark j → (shift i < shift j ↔ i < j)
  pos : ∀ {i}, mark i → 0 < i ∧ 0 < shift i
  step : ∀ {i}, mark i → i < s.size →
    Kept s t mark shift i ∨ ∃ n m, Respelled s t mark shift keyword i n m
  back : ∀ {i}, mark i →
    (t.cells[shift i - 1]? = s.cells[i - 1]? ∧
      (s.bodyStart < i → mark (i - 1) ∧ shift (i - 1) = shift i - 1)) ∨
    ∃ k n m, mark k ∧ Respelled s t mark shift keyword k n m ∧ i = k + n

namespace Alignment

variable {s t : Source} (A : Alignment s t) {p : Cell → Bool} {i j l : Nat}

abbrev Kept (i : Nat) : Prop := MethodBrowser.Kept s t A.mark A.shift i

abbrev Respelled (i n m : Nat) : Prop :=
  MethodBrowser.Respelled s t A.mark A.shift A.keyword i n m

theorem shift_le_iff (hi : A.mark i) (hj : A.mark j) : A.shift i ≤ A.shift j ↔ i ≤ j := by
  have := A.shift_lt_iff hj hi
  omega

theorem shift_inj (hi : A.mark i) (hj : A.mark j) : A.shift i = A.shift j ↔ i = j := by
  have := A.shift_lt_iff hi hj
  have := A.shift_lt_iff hj hi
  omega

theorem shift_lt_size (hi : A.mark i) : A.shift i < t.size ↔ i < s.size := by
  rw [← A.shift_size]
  exact A.shift_lt_iff hi A.mark_size

/-- Induction along the steps up to the offset `l`. -/
@[elab_as_elim]
theorem induct (hl : A.mark l) {motive : Nat → Prop} (stop : motive l)
    (kept : ∀ i, A.mark i → i < l → A.Kept i → motive (i + 1) → motive i)
    (word : ∀ i n m, A.mark i → i + n ≤ l → A.Respelled i n m → motive (i + n) → motive i)
    {i : Nat} (hi : A.mark i) (hil : i ≤ l) : motive i := by
  rcases Nat.eq_or_lt_of_le hil with rfl | hlt
  · exact stop
  · have hsize := A.le_size hl
    rcases A.step hi (by omega) with hk | ⟨n, m, hw⟩
    · exact kept i hi hlt hk (induct hl stop kept word hk.next hlt)
    · have hn := hw.inside hl hlt
      have := hw.old.pos
      exact word i n m hi hn hw (induct hl stop kept word hw.next hn)
termination_by l - i

/-! ## Single cells -/

theorem holds_shift (hp : Cell.Blind p) (hi : A.mark i) :
    t.holds p (A.shift i) = s.holds p i := by
  rcases Nat.lt_or_ge i s.size with hlt | hge
  · rcases A.step hi hlt with hk | ⟨n, m, hw⟩
    · exact Source.holds_congr hk.cell
    · rcases hp with hp | hp <;>
        rw [Source.holds_eq_of hp hw.old.letter, Source.holds_eq_of hp hw.new.letter]
  · have := A.shift_lt_size hi
    rw [Source.holds_of_size_le hge, Source.holds_of_size_le (by omega)]

theorem codeAt_shift {x : Char} (hch : Byte.isIdentStart x.toUInt8 = false) (hi : A.mark i) :
    t.codeAt (A.shift i) x = s.codeAt i x :=
  A.holds_shift (Cell.uniform_isCodeChar hch).blind hi

theorem isWordEnd_shift (hi : A.mark i) : t.isWordEnd (A.shift i) = s.isWordEnd i := by
  simp only [Source.isWordEnd, Source.byteIs, A.holds_shift Cell.uniform_isIdent.blind hi]

theorem isDigit_shift (hi : A.mark i) :
    t.byteIs Byte.isDigit (A.shift i) = s.byteIs Byte.isDigit i :=
  A.holds_shift Cell.uniform_isDigit.blind hi

/-- A cell that satisfies a predicate that rejects letters is kept. -/
theorem kept_of_holds (hp : ∀ c : Cell, c.isLetter → p c = false) (hi : A.mark i)
    (h : s.holds p i = true) : A.Kept i := by
  rcases A.step hi (Source.lt_size_of_holds h) with hk | ⟨n, m, hw⟩
  · exact hk
  · rw [Source.holds_eq_of hp hw.old.letter] at h
    simp at h

theorem kept_of_codeAt {x : Char} (hch : Byte.isIdentStart x.toUInt8 = false) (hi : A.mark i)
    (h : s.codeAt i x = true) : A.Kept i :=
  A.kept_of_holds (fun _ hc => Cell.isCodeChar_of_isLetter hch hc) hi h

/-- What stands just before an offset looks alike to a predicate that does not tell the
characters of words apart. -/
theorem holds_before {b : Bool} (hp : ∀ c : Cell, c.isWordChar → p c = b) (hi : A.mark i) :
    t.holds p (A.shift i - 1) = s.holds p (i - 1) := by
  rcases A.back hi with ⟨hcell, -⟩ | ⟨k, n, m, -, hw, rfl⟩
  · exact Source.holds_congr hcell
  · rw [hw.shift_next, Source.holds_eq_of hp hw.old.last, Source.holds_eq_of hp hw.new.last]

theorem isWordStart_shift (hi : A.mark i) : t.isWordStart (A.shift i) = s.isWordStart i := by
  have hpos := A.pos hi
  have hbefore := A.holds_before (fun _ => Cell.isIdent_of_isWordChar) hi
  have h₁ : (i == 0) = false := by simp; omega
  have h₂ : (A.shift i == 0) = false := by simp; omega
  simp only [Source.isWordStart, Source.byteIs, hbefore, h₁, h₂]

/-- Where only cells are kept, all offsets move alike. -/
theorem shift_add {n : Nat} (hi : A.mark i) (h : ∀ k < n, A.mark (i + k) → A.Kept (i + k)) :
    A.mark (i + n) ∧ A.shift (i + n) = A.shift i + n ∧
      ∀ k < n, t.cells[A.shift i + k]? = s.cells[i + k]? := by
  induction n with
  | zero => exact ⟨hi, rfl, fun k hk => absurd hk (by omega)⟩
  | succ n ih =>
    obtain ⟨hmark, hshift, hcells⟩ := ih fun k hk => h k (by omega)
    have hk := h n (by omega) hmark
    refine ⟨hk.next, by have := hk.shift_next; rw [← Nat.add_assoc]; omega, fun k hlt => ?_⟩
    rcases Nat.lt_or_ge k n with hkn | hkn
    · exact hcells k hkn
    · obtain rfl : k = n := by omega
      rw [← hshift, hk.cell]

/-! ## Runs -/

/-- The end of a uniform run has a counterpart, which is the end of the run there. -/
theorem runEnd_shift (hp : Cell.Uniform p) (hi : A.mark i) (hl : A.mark l) :
    A.mark (s.runEnd p i l) ∧
      t.runEnd p (A.shift i) (A.shift l) = A.shift (s.runEnd p i l) := by
  rcases Nat.lt_or_ge l i with hlt | hle
  · have := A.shift_lt_iff hl hi
    rw [Source.runEnd_of_le (by omega), Source.runEnd_of_le (by omega)]
    exact ⟨hi, rfl⟩
  · refine A.induct hl ?stop ?kept ?word hi hle
    case stop =>
      rw [Source.runEnd_of_le (Nat.le_refl _), Source.runEnd_of_le (Nat.le_refl _)]
      exact ⟨hl, rfl⟩
    case kept =>
      intro i hi hlt hk ih
      have hholds := A.holds_shift hp.blind hi
      cases h : s.holds p i with
      | false =>
        rw [Source.runEnd_of_not_holds h, Source.runEnd_of_not_holds (hholds.trans h)]
        exact ⟨hi, rfl⟩
      | true =>
        have hlt' := (A.shift_lt_iff hi hl).2 hlt
        rw [Source.runEnd_of_holds hlt h, Source.runEnd_of_holds hlt' (hholds.trans h),
          ← hk.shift_next]
        exact ih
    case word =>
      intro i n m hi hn hw ih
      rcases hp with hp | hp
      · -- The run ends before the word.
        rw [Source.runEnd_of_not_holds (Source.holds_eq_of hp hw.old.letter),
          Source.runEnd_of_not_holds (Source.holds_eq_of hp hw.new.letter)]
        exact ⟨hi, rfl⟩
      · -- The run takes the word as a whole.
        have hm := (A.shift_le_iff hw.next hl).2 hn
        rw [hw.shift_next] at hm
        rw [Source.runEnd_add hn fun k hk => Source.holds_eq_of hp (hw.old.chars k hk),
          Source.runEnd_add hm fun k hk => Source.holds_eq_of hp (hw.new.chars k hk),
          ← hw.shift_next]
        exact ih

theorem skipGap_shift (hi : A.mark i) (hl : A.mark l) :
    A.mark (s.skipGap i l) ∧ t.skipGap (A.shift i) (A.shift l) = A.shift (s.skipGap i l) :=
  A.runEnd_shift Cell.uniform_isGap hi hl

theorem identEnd_shift (hi : A.mark i) (hl : A.mark l) :
    A.mark (s.identEnd i l) ∧ t.identEnd (A.shift i) (A.shift l) = A.shift (s.identEnd i l) :=
  A.runEnd_shift Cell.uniform_isIdent hi hl

/-- A run that contains no letters keeps its length. -/
theorem shift_runEnd_sub (hp : ∀ c : Cell, c.isLetter → p c = false) (hi : A.mark i) :
    A.shift (s.runEnd p i l) - A.shift i = s.runEnd p i l - i := by
  have hle := s.le_runEnd p i l
  obtain ⟨-, hshift, -⟩ := A.shift_add (n := s.runEnd p i l - i) hi fun k hk hmark =>
    A.kept_of_holds hp hmark (Source.holds_of_lt_runEnd (i := i) (l := l) (by omega) (by omega))
  rw [show i + (s.runEnd p i l - i) = s.runEnd p i l by omega] at hshift
  omega

theorem find?_shift (hp : Cell.Uniform fun c => !p c) (hi : A.mark i) (hl : A.mark l) :
    t.find? p (A.shift i) (A.shift l) = (s.find? p i l).map A.shift := by
  obtain ⟨hmark, hend⟩ := A.runEnd_shift hp hi hl
  have hlt := A.shift_lt_iff hmark hl
  have hholds := A.holds_shift hp.blind.of_not hmark
  simp only [Source.find?, hend, hholds, hlt]
  split <;> simp_all

theorem mark_of_find? (hp : Cell.Uniform fun c => !p c) (hi : A.mark i) (hl : A.mark l)
    (h : s.find? p i l = some j) : A.mark j := by
  have hmark := (A.runEnd_shift hp hi hl).1
  simp only [Source.find?] at h
  grind

/-- The start of a run of cells that are no part of words has a counterpart. -/
theorem runStart_shift (hp : ∀ c : Cell, c.isWordChar → p c = false) (hi : A.mark i)
    (hl : A.mark l) :
    A.mark (s.runStart p i l) ∧
      t.runStart p (A.shift i) (A.shift l) = A.shift (s.runStart p i l) := by
  induction i using Nat.strongRecOn with
  | ind i ih =>
    rcases Nat.lt_or_ge l i with hlt | hle
    · have hlt' := (A.shift_lt_iff hl hi).2 hlt
      have hholds := A.holds_before hp hi
      cases h : s.holds p (i - 1) with
      | false =>
        rw [Source.runStart_of_not_holds h, Source.runStart_of_not_holds (hholds.trans h)]
        exact ⟨hi, rfl⟩
      | true =>
        rw [Source.runStart_of_holds hlt h, Source.runStart_of_holds hlt' (hholds.trans h)]
        rcases A.back hi with ⟨-, hback⟩ | ⟨k, n, m, -, hw, rfl⟩
        · obtain ⟨hi', hshift⟩ := hback (by have := A.bodyStart_le hl; omega)
          rw [← hshift]
          exact ih (i - 1) (by omega) hi'
        · rw [Source.holds_eq_of hp hw.old.last] at h
          simp at h
    · have := (A.shift_le_iff hi hl).2 hle
      rw [Source.runStart_of_le hle, Source.runStart_of_le this]
      exact ⟨hi, rfl⟩

/-! ## Lists of offsets -/

/-- The offsets of a respelled word, and those after it. -/
theorem offsets_word {n m : Nat} (hl : A.mark l) (hn : i + n ≤ l) (hw : A.Respelled i n m) :
    Span.offsets ⟨i, l⟩ = i :: Span.offsets ⟨i + 1, i + n⟩ ++ Span.offsets ⟨i + n, l⟩ ∧
      Span.offsets ⟨A.shift i, A.shift l⟩ =
        A.shift i :: Span.offsets ⟨A.shift i + 1, A.shift i + m⟩ ++
          Span.offsets ⟨A.shift (i + n), A.shift l⟩ := by
  have hpos := hw.old.pos
  have hpos' := hw.new.pos
  have hm := (A.shift_le_iff hw.next hl).2 hn
  rw [hw.shift_next] at hm ⊢
  rw [← Span.offsets_cons (by omega), ← Span.offsets_cons (by omega)]
  exact ⟨Span.offsets_append (by omega) hn, Span.offsets_append (by omega) hm⟩

/-- A search over all offsets finds the same when it finds nothing inside a word. -/
theorem filterMap_offsets {α : Type} {f g : Nat → Option α} {φ : α → α}
    (hfg : ∀ i, A.mark i → i < l → g (A.shift i) = (f i).map φ)
    (hf : ∀ k, s.Inner k → f k = none) (hg : ∀ k, t.Inner k → g k = none)
    (hi : A.mark i) (hl : A.mark l) :
    (Span.offsets ⟨A.shift i, A.shift l⟩).filterMap g =
      ((Span.offsets ⟨i, l⟩).filterMap f).map φ := by
  rcases Nat.lt_or_ge l i with hlt | hle
  · have := (A.shift_lt_iff hl hi).2 hlt
    rw [Span.offsets_nil (by omega), Span.offsets_nil (by omega)]
    rfl
  · refine A.induct hl ?stop ?kept ?word hi hle
    case stop =>
      rw [Span.offsets_nil (Nat.le_refl _), Span.offsets_nil (Nat.le_refl _)]
      rfl
    case kept =>
      intro i hi hlt hk ih
      rw [Span.offsets_cons hlt, Span.offsets_cons ((A.shift_lt_iff hi hl).2 hlt),
        ← hk.shift_next, List.filterMap_cons, List.filterMap_cons, hfg i hi hlt, ih]
      cases f i <;> rfl
    case word =>
      intro i n m hi hn hw ih
      obtain ⟨h₁, h₂⟩ := A.offsets_word hl hn hw
      have hpos := hw.old.pos
      rw [h₁, h₂, List.filterMap_append, List.filterMap_append, ih, List.filterMap_cons,
        List.filterMap_cons, hfg i hi (by omega), hw.old.filterMap_inner hf,
        hw.new.filterMap_inner hg]
      cases f i <;> rfl

/-- Only the offsets inside words have no counterpart. -/
theorem mark_of_not_inner (hi : A.mark i) (hl : A.mark l) {k : Nat} (hik : i ≤ k) (hkl : k ≤ l)
    (hk : ¬s.Inner k) : A.mark k := by
  refine A.induct (motive := fun i => i ≤ k → A.mark k) hl ?stop ?kept ?word hi (by omega) hik
  case stop =>
    intro hlk
    obtain rfl : k = l := by omega
    exact hl
  case kept =>
    intro i hi _ _ ih hik
    rcases Nat.eq_or_lt_of_le hik with rfl | hlt
    · exact hi
    · exact ih hlt
  case word =>
    intro i n m hi _ hw ih hik
    rcases Nat.eq_or_lt_of_le hik with rfl | hlt
    · exact hi
    · refine ih (Nat.le_of_not_lt fun hlt' => hk (hw.old.inner ?_))
      rw [Span.mem_offsets]
      exact ⟨hlt, hlt'⟩

/-- Whether all cells of a span satisfy a uniform predicate. -/
theorem all_holds_shift (hp : Cell.Uniform p) (hi : A.mark i) (hl : A.mark l) :
    (Span.offsets ⟨A.shift i, A.shift l⟩).all (t.holds p) =
      (Span.offsets ⟨i, l⟩).all (s.holds p) := by
  rcases Nat.lt_or_ge l i with hlt | hle
  · have := (A.shift_lt_iff hl hi).2 hlt
    rw [Span.offsets_nil (by omega), Span.offsets_nil (by omega)]
    rfl
  · refine A.induct hl ?stop ?kept ?word hi hle
    case stop =>
      rw [Span.offsets_nil (Nat.le_refl _), Span.offsets_nil (Nat.le_refl _)]
      rfl
    case kept =>
      intro i hi hlt hk ih
      rw [Span.offsets_cons hlt, Span.offsets_cons ((A.shift_lt_iff hi hl).2 hlt),
        ← hk.shift_next, List.all_cons, List.all_cons, A.holds_shift hp.blind hi, ih]
    case word =>
      intro i n m hi hn hw ih
      obtain ⟨h₁, h₂⟩ := A.offsets_word hl hn hw
      rcases hp with hp | hp
      · simp [h₁, h₂, Source.holds_eq_of hp hw.old.letter, Source.holds_eq_of hp hw.new.letter]
      · have hpos := hw.old.pos
        have hpos' := hw.new.pos
        rw [h₁, h₂, List.all_append, List.all_append, ih,
          ← Span.offsets_cons (show i < i + n by omega),
          ← Span.offsets_cons (show A.shift i < A.shift i + m by omega),
          hw.old.all_holds hp, hw.new.all_holds hp]

theorem isCodeSpan_shift (hi : A.mark i) (hl : A.mark l) :
    t.isCodeSpan ⟨A.shift i, A.shift l⟩ = s.isCodeSpan ⟨i, l⟩ := by
  have hle := A.shift_le_iff hl A.mark_size
  rw [A.shift_size] at hle
  have hall := A.all_holds_shift Cell.uniform_isCode hi hl
  simp only [Source.isCodeSpan]
  rw [show t.isCode = t.holds Cell.isCode from rfl, show s.isCode = s.holds Cell.isCode from rfl,
    hall]
  congr 1
  rw [Bool.eq_iff_iff]
  simpa using hle

end Alignment

end MethodBrowser
