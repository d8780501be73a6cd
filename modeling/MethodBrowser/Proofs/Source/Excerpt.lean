import MethodBrowser.Proofs.LiteralIndependence
import MethodBrowser.Proofs.StatementLayout

/-!
# Excerpts

A statement can be read in its method or by itself, as a text of its own. This module and the two that
build on it show that nothing is found in one reading that is not found in the other.

**What stands around a statement** (`Excerpt`). White space and comments stand on both sides, and
beyond them a period on its level, the start of the body or the end of the text. So no token goes
across its ends, nothing on its left is a receiver of what stands in it, and no group is open at its
start. All readers are given the end of the text as their limit: that of the method in one reading, that
of the statement in the other.
-/

namespace MethodBrowser

/-- A span moved by `o` bytes. -/
def Span.shift (o : Nat) (sp : Span) : Span := ⟨o + sp.start, o + sp.stop⟩

theorem Span.offsets_shift (o : Nat) (sp : Span) :
    (sp.shift o).offsets = sp.offsets.map (o + ·) := by
  rw [offsets, offsets, List.map_add_range', size, size, shift, Nat.add_sub_add_left]

namespace Cell

/-- White space, a period of code or a comment. -/
def isPause (c : Cell) : Bool := c.isGap || c.isCodeChar '.' || c.kind == .comment

/-- White space, a period of code or the double quote that opens a comment. -/
def isEnd (c : Cell) : Bool :=
  c.isGap || c.isCodeChar '.' || (c.kind == .comment && c.byte == '"'.toUInt8)

theorem isPause_of_isEnd {c : Cell} (h : c.isEnd = true) : c.isPause = true := by
  simp only [isEnd, isPause, Bool.or_eq_true, Bool.and_eq_true] at h ⊢
  exact h.imp_right And.left

/-- Where a pause is, only code of three kinds can be. -/
theorem isPause_cases {c : Cell} (h : c.isPause = true) :
    c.kind = .comment ∨ c.kind = .code ∧ (Byte.isBlank c.byte = true ∨ c.byte = '.'.toUInt8) := by
  simp only [isPause, isGap, isCodeChar, isCode, Bool.or_eq_true, Bool.and_eq_true, beq_iff_eq] at h
  tauto

theorem isEnd_cases {c : Cell} (h : c.isEnd = true) :
    Byte.isBlank c.byte = true ∨ c.byte = '.'.toUInt8 ∨ c.byte = '"'.toUInt8 := by
  simp only [isEnd, isGap, isCodeChar, Bool.or_eq_true, Bool.and_eq_true, beq_iff_eq] at h
  tauto

/-! ### What is not read at a pause -/

theorem code_of_isPause {q : UInt8 → Bool} (hblank : ∀ b, Byte.isBlank b = true → q b = false)
    (hperiod : q '.'.toUInt8 = false) {c : Cell} (h : c.isPause = true) :
    (c.isCode && q c.byte) = false := by
  rcases isPause_cases h with hkind | ⟨hkind, hbyte | hbyte⟩
  · rw [isCode, hkind]
    rfl
  · rw [hblank _ hbyte, Bool.and_false]
  · rw [hbyte, hperiod, Bool.and_false]

theorem isCodeChar_of_isPause {x : Char} (hblank : Byte.isBlank x.toUInt8 = false)
    (hperiod : x.toUInt8 ≠ '.'.toUInt8) {c : Cell} (h : c.isPause = true) : c.isCodeChar x = false := by
  refine code_of_isPause (q := (· == x.toUInt8)) (fun b hb => ?_) ?_ h
  · rw [beq_eq_false_iff_ne]
    rintro rfl
    simp [hb] at hblank
  · simpa using hperiod.symm

theorem isLetter_of_isPause {c : Cell} (h : c.isPause = true) : c.isLetter = false := by
  refine code_of_isPause (q := Byte.isIdentStart) (fun b hb => ?_) (by decide) h
  by_contra hstart
  have hident := isIdent_of_isIdentStart (by simpa using hstart)
  rw [isIdent_of_isBlank hb] at hident
  simp at hident

theorem isBinary_of_isPause {c : Cell} (h : c.isPause = true) :
    (c.isCode && Byte.isBinary c.byte) = false :=
  code_of_isPause (fun _ => Source.isBinary_of_isBlank) (by decide) h

theorem isIdent_of_isEnd {c : Cell} (h : c.isEnd = true) : Byte.isIdent c.byte = false := by
  rcases isEnd_cases h with hb | hb | hb
  · exact isIdent_of_isBlank hb
  · rw [hb]
    decide
  · rw [hb]
    decide

theorem isDigit_of_isIdent {b : UInt8} (h : Byte.isIdent b = false) : Byte.isDigit b = false := by
  by_contra hdigit
  rw [Byte.isIdent_of_isDigit (by simpa using hdigit)] at h
  simp at h

end Cell

theorem Source.fractionEnd_le {src : Source} {i l : Nat} (h : i ≤ l) : src.fractionEnd i l ≤ l := by
  rw [fractionEnd]
  split
  · next hpoint =>
    simp only [Bool.and_eq_true, decide_eq_true_eq] at hpoint
    exact runEnd_le (Nat.le_of_lt hpoint.1.1)
  · exact h

/-- `w` is the text of a statement of `s`, and `s` is read from the offset `floor` on. -/
structure Excerpt (w s : Source) where
  /-- Where statements may begin. -/
  floor : Nat
  /-- Where the white space and the comments before the statement start. -/
  left : Nat
  /-- Where the statement starts. -/
  offset : Nat
  /-- Where the white space and the comments after the statement end. -/
  right : Nat
  pos : 0 < w.size
  cell : ∀ {k}, k < w.size → s.cells[offset + k]? = w.cells[k]?
  first : w.isSignificant 0 = true
  last : w.isSignificant (w.size - 1) = true
  floor_le : floor ≤ left
  left_le : left ≤ offset
  before : s.Idle left offset
  opening : floor < left →
    s.isTerminator (left - 1) = true ∧ s.nestFrom .empty floor left = .empty
  bound : offset = 0 ∨ s.byteIs (fun b => !(Byte.isIdent b || (b == '#'.toUInt8 || b == ':'.toUInt8)))
    (offset - 1) = true
  le_right : offset + w.size ≤ right
  after : s.Idle (offset + w.size) right
  closing : right < s.size → s.isTerminator right = true ∧
    s.byteIs Byte.isDigit (right + 1) = false ∧ s.nestFrom .empty offset right = .empty
  ends : s.holds (fun c => !c.isEnd) (offset + w.size) = false

namespace Excerpt

variable {w s : Source} (E : Excerpt w s) {p : Cell → Bool} {k : Nat}

/-! ## Cells -/

theorem holds_shift (hk : k < w.size) : s.holds p (E.offset + k) = w.holds p k :=
  Source.holds_congr (E.cell hk)

theorem size_le : E.offset + w.size ≤ s.size := by
  have hpos := E.pos
  have hlast : s.isSignificant (E.offset + (w.size - 1)) = true := by
    rw [Source.isSignificant, E.holds_shift (by omega)]
    exact E.last
  have := Source.lt_size_of_holds hlast
  omega

/-- What is not found at white space, at a period or at the start of a comment is not found after the
statement. -/
theorem holds_end (hp : ∀ c : Cell, c.isEnd = true → p c = false) :
    s.holds p (E.offset + w.size) = false := by
  have hends := E.ends
  rw [Source.holds] at hends ⊢
  cases hcell : s.cells[E.offset + w.size]? with
  | none => rfl
  | some c =>
    rw [hcell, Option.any_some, Bool.not_eq_false'] at hends
    exact hp c hends

theorem holds_shift_le (hp : ∀ c : Cell, c.isEnd = true → p c = false) (hk : k ≤ w.size) :
    s.holds p (E.offset + k) = w.holds p k := by
  rcases Nat.eq_or_lt_of_le hk with rfl | hlt
  · rw [E.holds_end hp, Source.holds_of_size_le (Nat.le_refl _)]
  · exact E.holds_shift hlt

theorem codeAt_shift {x : Char} (hblank : Byte.isBlank x.toUInt8 = false)
    (hperiod : x.toUInt8 ≠ '.'.toUInt8) (hk : k ≤ w.size) :
    s.codeAt (E.offset + k) x = w.codeAt k x :=
  E.holds_shift_le (fun _ hc =>
    Cell.isCodeChar_of_isPause hblank hperiod (Cell.isPause_of_isEnd hc)) hk

theorem isDigit_shift (hk : k ≤ w.size) :
    s.byteIs Byte.isDigit (E.offset + k) = w.byteIs Byte.isDigit k :=
  E.holds_shift_le (fun _ hc => Cell.isDigit_of_isIdent (Cell.isIdent_of_isEnd hc)) hk

/-! ### What stands before the statement -/

theorem byteIs_before {q : UInt8 → Bool}
    (hq : ∀ b, q b = true → (Byte.isIdent b || (b == '#'.toUInt8 || b == ':'.toUInt8)) = true)
    (hpos : 0 < E.offset) : s.byteIs q (E.offset - 1) = false := by
  refine Source.holds_eq_of (fun c hc => ?_) (E.bound.resolve_left (by omega))
  by_contra hqc
  simp [hq _ (by simpa using hqc)] at hc

/-- A question about the byte before an offset, where there is one. -/
theorem byteIs_pred {q : UInt8 → Bool}
    (hq : ∀ b, q b = true → (Byte.isIdent b || (b == '#'.toUInt8 || b == ':'.toUInt8)) = true)
    (hk : k ≤ w.size) :
    (Nat.blt 0 (E.offset + k) && s.byteIs q (E.offset + k - 1)) =
      (Nat.blt 0 k && w.byteIs q (k - 1)) := by
  cases k with
  | zero =>
    rcases Nat.eq_zero_or_pos E.offset with hzero | hpos
    · rw [hzero]
      rfl
    · rw [Nat.add_zero, E.byteIs_before hq hpos, Bool.and_false]
      rfl
  | succ k =>
    have hcell : s.byteIs q (E.offset + k) = w.byteIs q k := E.holds_shift (by omega)
    have hblt : ∀ m, Nat.blt 0 (m + 1) = true := fun m => by simp
    rw [show E.offset + (k + 1) - 1 = E.offset + k by omega, hcell, ← Nat.add_assoc, hblt, hblt]
    rfl

theorem isWordStart_shift (hk : k ≤ w.size) :
    s.isWordStart (E.offset + k) = w.isWordStart k := by
  have hpred := E.byteIs_pred (q := Byte.isIdent) (fun b hb => by rw [hb]; rfl) hk
  have hstart : ∀ (src : Source) (i : Nat),
      src.isWordStart i = !(Nat.blt 0 i && src.byteIs Byte.isIdent (i - 1)) := fun src i => by
    cases i with
    | zero => rfl
    | succ i => simp [Source.isWordStart]
  rw [hstart, hstart, hpred]

/-! ## Runs -/

theorem runEnd_shift (hp : ∀ c : Cell, c.isEnd = true → p c = false) (hk : k ≤ w.size) :
    s.runEnd p (E.offset + k) s.size = E.offset + w.runEnd p k w.size := by
  have hsize := E.size_le
  induction hd : w.size - k generalizing k with
  | zero =>
    obtain rfl : k = w.size := by omega
    rw [Source.runEnd_of_not_holds (E.holds_end hp), Source.runEnd_of_le (Nat.le_refl _)]
  | succ d ih =>
    have hcell := E.holds_shift (p := p) (k := k) (by omega)
    cases hh : w.holds p k with
    | false =>
      rw [Source.runEnd_of_not_holds hh, Source.runEnd_of_not_holds (hcell.trans hh)]
    | true =>
      rw [Source.runEnd_of_holds (by omega) hh, Source.runEnd_of_holds (by omega) (hcell.trans hh)]
      exact ih (k := k + 1) (by omega) (by omega)

theorem identEnd_shift (hk : k ≤ w.size) :
    s.identEnd (E.offset + k) s.size = E.offset + w.identEnd k w.size :=
  E.runEnd_shift (fun _ => Cell.isIdent_of_isEnd) hk

theorem digitsEnd_shift (hk : k ≤ w.size) :
    s.digitsEnd (E.offset + k) s.size = E.offset + w.digitsEnd k w.size :=
  E.runEnd_shift (fun _ hc => Cell.isDigit_of_isIdent (Cell.isIdent_of_isEnd hc)) hk

theorem not_isGap_last (E : Excerpt w s) : w.holds Cell.isGap (w.size - 1) = false :=
  Source.holds_eq_of (fun c hc => by
    simp only [Cell.isSignificant] at hc
    cases hkind : c.kind <;> simp_all [Cell.isGap, Cell.isCode]) E.last

/-- White space in a statement is followed by the rest of the statement. -/
theorem skipGap_shift (hk : k < w.size) :
    s.skipGap (E.offset + k) s.size = E.offset + w.skipGap k w.size ∧ w.skipGap k w.size < w.size := by
  have hsize := E.size_le
  have hlast := E.not_isGap_last
  simp only [Source.skipGap]
  induction hd : w.size - k generalizing k with
  | zero => omega
  | succ d ih =>
    have hcell := E.holds_shift (p := Cell.isGap) hk
    cases hh : w.holds Cell.isGap k with
    | false =>
      rw [Source.runEnd_of_not_holds hh, Source.runEnd_of_not_holds (hcell.trans hh)]
      exact ⟨rfl, hk⟩
    | true =>
      have hlt : k + 1 < w.size := Nat.lt_of_not_le fun hle => by
        rw [show w.size - 1 = k by omega, hh] at hlast
        simp at hlast
      rw [Source.runEnd_of_holds (by omega) hh, Source.runEnd_of_holds (by omega) (hcell.trans hh)]
      exact ih hlt (by omega)

/-- Up to the period after the statement there are only pauses. -/
theorem isPause_of_le {i : Nat} (hi : E.offset + w.size ≤ i) (hright : i ≤ E.right)
    (hsize : i < s.size) : s.holds Cell.isPause i = true := by
  have hcell : s.cells[i]? = some s.cells[i] := Array.getElem?_eq_getElem hsize
  rcases Nat.eq_or_lt_of_le hright with rfl | hlt
  · have hterm := (E.closing hsize).1
    rw [Source.isTerminator, Bool.and_eq_true] at hterm
    refine Source.holds_of_imp (fun c hc => ?_) hterm.1
    rw [Cell.isPause, hc, Bool.or_true, Bool.true_or]
  · have hidle := E.after i hi hlt
    rw [Source.isSignificant, Source.holds, hcell, Option.any_some] at hidle
    rw [Source.holds, hcell, Option.any_some]
    cases hkind : s.cells[i].kind with
    | code =>
      simp only [Cell.isSignificant, hkind, Bool.not_eq_false'] at hidle
      simp [Cell.isPause, Cell.isGap, Cell.isCode, hkind, hidle]
    | string => simp [Cell.isSignificant, hkind] at hidle
    | comment => simp [Cell.isPause, hkind]

/-- Nothing is found after the white space that follows the statement. -/
theorem holds_skipGap_end (hp : ∀ c : Cell, c.isPause = true → p c = false) :
    s.holds p (s.skipGap (E.offset + w.size) s.size) = false := by
  generalize hj : s.skipGap (E.offset + w.size) s.size = j
  have hle : E.offset + w.size ≤ j := hj ▸ s.le_skipGap ..
  rcases Nat.lt_or_ge j s.size with hlt | hge
  · refine Source.holds_eq_of hp (E.isPause_of_le hle ?_ hlt)
    rcases Nat.lt_or_ge E.right s.size with hright | hright
    · refine hj ▸ Source.runEnd_le_of_not_holds E.le_right ?_
      have hterm := (E.closing hright).1
      rw [Source.isTerminator, Bool.and_eq_true] at hterm
      refine Source.holds_eq_of (fun c hc => ?_) hterm.1
      rw [Cell.isCodeChar, Bool.and_eq_true, beq_iff_eq] at hc
      rw [Cell.isGap, hc.2]
      exact Bool.and_false _
    · omega
  · exact Source.holds_of_size_le hge

/-! ## Tokens -/

theorem all_holds_shift {j : Nat} (hj : j ≤ w.size) :
    (Span.offsets ⟨E.offset + k, E.offset + j⟩).all (s.holds p) =
      (Span.offsets ⟨k, j⟩).all (w.holds p) := by
  have hoffsets := Span.offsets_shift E.offset ⟨k, j⟩
  rw [Span.shift] at hoffsets
  rw [hoffsets, List.all_map, Bool.eq_iff_iff, List.all_eq_true, List.all_eq_true]
  refine forall₂_congr fun i hi => ?_
  rw [Span.mem_offsets] at hi
  rw [Function.comp_apply, E.holds_shift (Nat.lt_of_lt_of_le hi.2 hj)]

theorem isCodeSpan_shift (sp : Span) (hstop : sp.stop ≤ w.size) :
    s.isCodeSpan (sp.shift E.offset) = w.isCodeSpan sp := by
  have hsize := E.size_le
  have hle : Nat.ble (E.offset + sp.stop) s.size = true := Nat.ble_eq ▸ (by omega)
  have hle' : Nat.ble sp.stop w.size = true := Nat.ble_eq ▸ hstop
  simp only [Source.isCodeSpan, Span.shift, hle, hle', Bool.true_and]
  exact E.all_holds_shift hstop

theorem wordAt?_shift (hk : k ≤ w.size) :
    s.wordAt? (E.offset + k) s.size = (w.wordAt? k w.size).map (Span.shift E.offset) := by
  have hsize := E.size_le
  have hletter := E.holds_shift_le (p := Cell.isLetter)
    (fun _ hc => Cell.isLetter_of_isPause (Cell.isPause_of_isEnd hc)) hk
  have hend : w.identEnd k w.size ≤ w.size := Source.runEnd_le hk
  have hcode := E.isCodeSpan_shift ⟨k, w.identEnd k w.size⟩ hend
  rw [Source.wordAt?_eq, Source.wordAt?_eq, E.identEnd_shift hk, hletter, E.isWordStart_shift hk]
  rcases Nat.eq_or_lt_of_le hk with rfl | hlt
  · rw [Source.holds_of_size_le (Nat.le_refl _)]
    simp
  · rw [Span.shift] at hcode
    rw [hcode, decide_eq_true hlt, decide_eq_true (show E.offset + k < s.size by omega)]
    split <;> rfl

theorem isAssignment_shift (hk : k < w.size) : s.isAssignment (E.offset + k) = w.isAssignment k := by
  rw [Source.isAssignment, Source.isAssignment, E.codeAt_shift (by decide) (by decide) (by omega),
    Nat.add_assoc, E.codeAt_shift (by decide) (by decide) (by omega)]

theorem isKeywordColon_shift (hk : k ≤ w.size) :
    s.isKeywordColon (E.offset + k) = w.isKeywordColon k := by
  rw [Source.isKeywordColon, Source.isKeywordColon, E.codeAt_shift (by decide) (by decide) hk]
  rcases Nat.eq_or_lt_of_le hk with rfl | hlt
  · rw [Source.codeAt, Source.holds_of_size_le (Nat.le_refl _)]
    rfl
  · rw [E.isAssignment_shift hlt]

theorem isTerminator_shift (hk : k < w.size) : s.isTerminator (E.offset + k) = w.isTerminator k := by
  have hperiod : s.codeAt (E.offset + k) '.' = w.codeAt k '.' := E.holds_shift hk
  have hpred := E.byteIs_pred (q := Byte.isDigit) (fun b hb => by
    rw [Byte.isIdent_of_isDigit hb]; rfl) (Nat.le_of_lt hk)
  rw [Source.isTerminator, Source.isTerminator, hperiod, hpred, Nat.add_assoc,
    E.isDigit_shift (Nat.succ_le_of_lt hk)]

theorem binaryAt?_shift (hk : k ≤ w.size) :
    s.binaryAt? (E.offset + k) s.size = (w.binaryAt? k w.size).map (Span.shift E.offset) := by
  have hend := E.runEnd_shift (p := fun c => c.isCode && Byte.isBinary c.byte)
    (fun _ hc => Cell.isBinary_of_isPause (Cell.isPause_of_isEnd hc)) hk
  simp only [Source.binaryAt?, hend, Nat.add_sub_add_left, Nat.add_lt_add_iff_left]
  split <;> rfl

theorem keywordAt?_shift (hk : k ≤ w.size) :
    s.keywordAt? (E.offset + k) s.size = (w.keywordAt? k w.size).map (Span.shift E.offset) := by
  have hsize := E.size_le
  have hpred := E.byteIs_pred (q := fun b => b == '#'.toUInt8 || b == ':'.toUInt8)
    (fun b hb => by rw [hb, Bool.or_true]) hk
  simp only [Source.keywordAt?, E.wordAt?_shift hk]
  cases hw : w.wordAt? k w.size with
  | none => rfl
  | some word =>
    have hstop := Source.wordAt?_stop_le hw
    have hlimit : (decide (E.offset + word.stop < s.size) && w.isKeywordColon word.stop) =
        (decide (word.stop < w.size) && w.isKeywordColon word.stop) := by
      rcases Nat.eq_or_lt_of_le hstop with heq | hlt
      · rw [heq, Source.isKeywordColon, Source.codeAt, Source.holds_of_size_le (Nat.le_refl _)]
        simp
      · rw [decide_eq_true hlt, decide_eq_true (show E.offset + word.stop < s.size by omega)]
    simp only [Option.map_some, Span.shift, E.isKeywordColon_shift hstop, hpred, hlimit]
    split <;> rfl

/-! ### Receivers -/

/-- A period right after the statement is the one that ends it. -/
theorem not_fraction_end : (s.byteIs (· == '.'.toUInt8) (E.offset + w.size) &&
    s.byteIs Byte.isDigit (E.offset + w.size + 1)) = false := by
  cases hperiod : s.byteIs (· == '.'.toUInt8) (E.offset + w.size) with
  | false => rfl
  | true =>
    have hlt := Source.lt_size_of_holds hperiod
    have hright : E.right = E.offset + w.size := by
      refine Nat.le_antisymm (Nat.le_of_not_lt fun hlt' => ?_) E.le_right
      -- Neither white space nor the start of a comment is a period.
      have hends := E.ends
      have hidle := E.after _ (Nat.le_refl _) hlt'
      rw [Source.byteIs, Source.holds, Array.getElem?_eq_getElem hlt, Option.any_some,
        beq_iff_eq] at hperiod
      rw [Source.holds, Array.getElem?_eq_getElem hlt, Option.any_some, Cell.isEnd, Cell.isGap,
        hperiod] at hends
      rw [Source.isSignificant, Source.holds, Array.getElem?_eq_getElem hlt, Option.any_some,
        Cell.isSignificant, hperiod] at hidle
      cases hkind : s.cells[E.offset + w.size].kind with
      | code =>
        rw [hkind] at hidle
        exact absurd hidle (by decide)
      | string =>
        rw [hkind] at hidle
        exact absurd hidle (by decide)
      | comment =>
        simp only [Cell.isCodeChar, Cell.isCode, hkind, hperiod] at hends
        exact absurd hends (by decide)
    have hclosing := (E.closing (by omega)).2.1
    rwa [hright] at hclosing

theorem fractionEnd_shift (hk : k ≤ w.size) :
    s.fractionEnd (E.offset + k) s.size = E.offset + w.fractionEnd k w.size := by
  have hsize := E.size_le
  rw [Source.fractionEnd, Source.fractionEnd]
  rcases Nat.eq_or_lt_of_le hk with rfl | hlt
  · rw [Bool.and_assoc, E.not_fraction_end, Bool.and_false, if_neg (by simp), if_neg (by simp)]
  · have hperiod : s.byteIs (· == '.'.toUInt8) (E.offset + k) = w.byteIs (· == '.'.toUInt8) k :=
      E.holds_shift hlt
    rw [hperiod, Nat.add_assoc, E.isDigit_shift hlt, E.digitsEnd_shift hlt]
    rcases Nat.eq_or_lt_of_le (Nat.succ_le_of_lt hlt) with heq | hlt'
    · have hnone : w.byteIs Byte.isDigit (k + 1) = false :=
        Source.holds_of_size_le (Nat.le_of_eq heq.symm)
      rw [hnone, Bool.and_false, Bool.and_false, if_neg (by simp), if_neg (by simp)]
    · rw [decide_eq_true (show E.offset + (k + 1) < s.size by omega),
        decide_eq_true (show k + 1 < w.size from hlt')]
      split <;> rfl

theorem numberAt?_shift (hk : k ≤ w.size) :
    s.numberAt? (E.offset + k) s.size = (w.numberAt? k w.size).map (Span.shift E.offset) := by
  rw [Source.numberAt?_eq, Source.numberAt?_eq, E.isDigit_shift hk, E.isWordStart_shift hk]
  rcases Nat.eq_or_lt_of_le hk with rfl | hlt
  · have hnone : w.byteIs Byte.isDigit w.size = false := Source.holds_of_size_le (Nat.le_refl _)
    rw [hnone]
    rfl
  · have hwhole : w.digitsEnd (k + 1) w.size ≤ w.size := Source.runEnd_le hlt
    have hstop : w.fractionEnd (w.digitsEnd (k + 1) w.size) w.size ≤ w.size :=
      Source.fractionEnd_le hwhole
    have hend : ∀ j ≤ w.size, s.isWordEnd (E.offset + j) = w.isWordEnd j := fun j hj => by
      rw [Source.isWordEnd, Source.isWordEnd]
      exact congrArg _ (E.holds_shift_le (fun _ => Cell.isIdent_of_isEnd) hj)
    have hcode := E.isCodeSpan_shift ⟨k, w.fractionEnd (w.digitsEnd (k + 1) w.size) w.size⟩ hstop
    rw [Span.shift] at hcode
    rw [Nat.add_assoc, E.digitsEnd_shift hlt, E.fractionEnd_shift hwhole, hend _ hstop, hcode]
    split
    · split <;> rfl
    · rfl

theorem isCloser_shift (hk : k ≤ w.size) : s.isCloser (E.offset + k) = w.isCloser k := by
  rw [Source.isCloser, Source.isCloser, E.codeAt_shift (by decide) (by decide) hk,
    E.codeAt_shift (by decide) (by decide) hk, E.codeAt_shift (by decide) (by decide) hk]

/-- ASCII text is spelled alike in both readings. -/
theorem slice_shift {sp : Span} (hle : sp.start ≤ sp.stop) (hstop : sp.stop ≤ w.size)
    (hascii : ∀ k, sp.start ≤ k → k < sp.stop → w.holds Cell.isAscii k = true) :
    s.slice (sp.shift E.offset) = w.slice sp := by
  obtain ⟨n, hn⟩ := Nat.exists_eq_add_of_le hle
  obtain ⟨start, stop⟩ := sp
  simp only at hn hstop hascii
  subst hn
  rw [Span.shift, ← Nat.add_assoc]
  refine Source.slice_congr (fun k hk => hascii _ (by omega) (by omega)) fun k hk => ?_
  rw [Nat.add_assoc]
  exact E.cell (k := start + k) (by omega)

theorem isAscii_of_wordAt? {sp : Span} (h : w.wordAt? k w.size = some sp) {j : Nat}
    (hstart : sp.start ≤ j) (hstop : j < sp.stop) : w.holds Cell.isAscii j = true := by
  rw [(w.wordAt?_bounds h).1] at hstart
  exact Source.holds_of_imp (fun _ hc => Cell.isAscii_of_isIdent (Cell.isIdent_of_isWordChar hc))
    (Source.isWordChar_of_wordAt? h hstart hstop)

theorem slice_word {sp : Span} (h : w.wordAt? k w.size = some sp) :
    s.slice (sp.shift E.offset) = w.slice sp := by
  have hbounds := w.wordAt?_bounds h
  exact E.slice_shift (by omega) (Source.wordAt?_stop_le h) fun _ => isAscii_of_wordAt? h

theorem receiverAt?_shift (hk : k ≤ w.size) :
    s.receiverAt? (E.offset + k) s.size =
      (w.receiverAt? k w.size).map fun found => (found.1, E.offset + found.2) := by
  rw [Source.receiverAt?, Source.receiverAt?, E.wordAt?_shift hk, E.numberAt?_shift hk,
    E.isCloser_shift hk]
  cases hw : w.wordAt? k w.size with
  | some word =>
    have hcolon := E.codeAt_shift (x := ':') (by decide) (by decide) (Source.wordAt?_stop_le hw)
    simp only [Option.map_some, E.slice_word hw]
    rw [Span.shift, hcolon]
    split <;> rfl
  | none =>
    cases w.numberAt? k w.size with
    | some number => rfl
    | none =>
      simp only [Option.map_none]
      split <;> rfl

end Excerpt

/-! ### Unary and binary sends -/

/-- A send moved by `o` bytes. -/
def Send.shift (o : Nat) (send : Send) : Send := { send with span := send.span.shift o }

namespace Excerpt

variable {w s : Source} (E : Excerpt w s) {k : Nat}

theorem slice_binary {sp : Span} (h : w.binaryAt? k w.size = some sp) :
    s.slice (sp.shift E.offset) = w.slice sp := by
  simp only [Source.binaryAt?] at h
  split at h
  · next hif =>
    obtain rfl := Option.some.inj h
    simp only [Bool.and_eq_true, decide_eq_true_eq] at hif
    have hk : k ≤ w.size := Nat.le_of_not_lt fun hlt => by
      rw [Source.runEnd_of_le (Nat.le_of_lt hlt)] at hif
      omega
    refine E.slice_shift (Nat.le_of_lt hif.1) (Source.runEnd_le hk) fun j hstart hstop => ?_
    refine Source.holds_of_imp (fun c hc => ?_) (Source.holds_of_lt_runEnd hstart hstop)
    rw [Bool.and_eq_true] at hc
    exact Cell.isAscii_of_isBinary hc.2
  · simp at h

theorem wordAt?_of_not_isLetter {src : Source} {i l : Nat} (h : src.holds Cell.isLetter i = false) :
    src.wordAt? i l = none := by
  rw [Source.wordAt?_eq, h]
  simp

theorem binaryAt?_of_not_holds {src : Source} {i l : Nat}
    (h : src.holds (fun c => c.isCode && Byte.isBinary c.byte) i = false) :
    src.binaryAt? i l = none := by
  rw [Source.binaryAt?, Source.runEnd_of_not_holds h, decide_eq_false (Nat.lt_irrefl i)]
  rfl

theorem sendAfter?_shift (r : Receiver) (hk : k ≤ w.size) :
    s.sendAfter? r (E.offset + k) s.size = (w.sendAfter? r k w.size).map (Send.shift E.offset) := by
  rw [Source.sendAfter?, Source.sendAfter?]
  rcases Nat.eq_or_lt_of_le hk with rfl | hlt
  · -- After the statement there is nothing to read, in either reading.
    rw [wordAt?_of_not_isLetter (E.holds_skipGap_end fun _ => Cell.isLetter_of_isPause),
      binaryAt?_of_not_holds (E.holds_skipGap_end fun _ => Cell.isBinary_of_isPause),
      Source.skipGap, Source.runEnd_of_le (Nat.le_refl _),
      wordAt?_of_not_isLetter (Source.holds_of_size_le (Nat.le_refl _)),
      binaryAt?_of_not_holds (Source.holds_of_size_le (Nat.le_refl _))]
    rfl
  · obtain ⟨hgap, hlt'⟩ := E.skipGap_shift hlt
    rw [hgap, E.wordAt?_shift (Nat.le_of_lt hlt'), E.binaryAt?_shift (Nat.le_of_lt hlt')]
    cases hw : w.wordAt? (w.skipGap k w.size) w.size with
    | some word =>
      have hcolon := E.codeAt_shift (x := ':') (by decide) (by decide) (Source.wordAt?_stop_le hw)
      simp only [Option.map_some, E.slice_word hw]
      rw [Span.shift, hcolon]
      split <;> rfl
    | none =>
      cases hb : w.binaryAt? (w.skipGap k w.size) w.size with
      | some token =>
        simp only [Option.map_some, Option.map_none, E.slice_binary hb]
        rfl
      | none => rfl

end Excerpt

end MethodBrowser
