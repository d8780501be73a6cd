import MethodBrowser.Proofs.Send.Recognition
import MethodBrowser.Proofs.Source.Balance
import MethodBrowser.Proofs.Source.ExcerptRegion
import MethodBrowser.Proofs.Source.Occurrences

/-!
# Literal arrays and block temporaries on both sides of a cut

What is left out of a region is found by scans that only look ahead. So where two texts are the same, they
find the same:

**From an offset on.** After a cut the scans of a text are those of the rest by itself
(`Source.Cut.literalArraysFrom_rest`, `Source.Cut.blockTemporariesAt?_rest`).

**Up to an offset.** A scan that has come to its end before an offset does not depend on what stands from
there on (`Source.SameBelow.groupEnd`, `Source.SameBelow.blockTemporariesAt?`).
-/

namespace MethodBrowser

namespace Source

variable {src : Source} {i j k l : Nat}

/-! ## Literal arrays -/

/-- A literal array ends where the groups are closed that are opened from an offset before it on. -/
theorem groupEnd_le_of_opensArray (hopens : src.opensArray k = true) (hik : i ≤ k) (hkj : k + 2 ≤ j)
    (hjl : j ≤ l) (hclosed : src.nestFrom .empty i j = .empty) : src.groupEnd .empty (k + 1) l ≤ j := by
  obtain ⟨m, hm, hend, hnest⟩ := groupEnd_of_opensArray (l := l) hopens (by omega)
  rw [hend]
  refine groupEnd_le (n := src.nestFrom .empty i k) hm hkj hjl ?_
  rw [← hnest, ← nestFrom_trans hik (by omega), ← nestFrom_trans (by omega) hkj, hclosed]

/-- The scan for literal arrays comes to an offset, unless that is inside of an array. -/
theorem literalArraysFrom_split (hkj : k ≤ j) :
    (∃ array ∈ src.literalArraysFrom k l, array.start < j ∧ j < array.stop) ∨
      ∃ left, src.literalArraysFrom k l = left ++ src.literalArraysFrom j l ∧
        ∀ array ∈ left, array.stop ≤ j := by
  rcases Nat.eq_or_lt_of_le hkj with rfl | hlt
  · exact .inr ⟨[], rfl, by simp⟩
  · fun_induction literalArraysFrom src k l with
    | case1 k hkl hopens ih =>
      rcases Nat.lt_trichotomy j (src.groupEnd .empty (k + 1) l) with hin | rfl | hgt
      · exact .inl ⟨_, List.mem_cons_self, hlt, hin⟩
      · exact .inr ⟨[_], rfl, by simp⟩
      · rcases ih (Nat.le_of_lt hgt) hgt with ⟨array, harray, hin⟩ | ⟨left, heq, hleft⟩
        · exact .inl ⟨array, List.mem_cons_of_mem _ harray, hin⟩
        · exact .inr ⟨_ :: left, by rw [heq, List.cons_append],
            List.forall_mem_cons.2 ⟨Nat.le_of_lt hgt, hleft⟩⟩
    | case2 k hkl hopens ih =>
      rcases Nat.eq_or_lt_of_le (Nat.succ_le_of_lt hlt) with rfl | hgt
      · exact .inr ⟨[], rfl, by simp⟩
      · exact ih (Nat.le_of_lt hgt) hgt
    | case3 k hkl => exact .inr ⟨[], (literalArraysFrom_of_le (by omega)).symm, by simp⟩

/-! ## Block temporaries -/

theorem not_isWordChar_of_isGap (h : src.holds Cell.isGap k = true) :
    src.holds Cell.isWordChar k = false := by
  by_contra hchar
  rw [not_isGap_of_isSignificant (isSignificant_of_isWordChar (by simpa using hchar))] at h
  simp at h

/-- A word among block parameters stands behind a colon. -/
theorem colon_of_skipParameters (hik : i ≤ k) (hk : k < src.skipParameters i l)
    (hchar : src.holds Cell.isWordChar k = true) (hstart : src.isWordStart k = true) :
    src.codeAt (k - 1) ':' = true := by
  fun_induction skipParameters src i l with
  | case1 i hcolon hnone => omega
  | case2 i hcolon hsome ih =>
    rw [Bool.and_eq_true, decide_eq_true_eq] at hcolon
    rcases Nat.lt_trichotomy k i with hlt | rfl | hgt
    · omega
    · rw [codeAt_of_isWordChar (by decide) hchar] at hcolon
      simp at hcolon
    · rcases Nat.lt_or_ge k (src.identEnd (i + 1) l) with hin | hge
      · rcases Nat.eq_or_lt_of_le (Nat.succ_le_of_lt hgt) with heq | hlt
        · rw [← heq, Nat.succ_sub_one]
          exact hcolon.2
        · have hin' : k - 1 < src.runEnd (fun c => Byte.isIdent c.byte) (i + 1) l :=
            Nat.lt_of_le_of_lt (Nat.sub_le k 1) hin
          have hbefore : src.byteIs Byte.isIdent (k - 1) = true := holds_of_lt_runEnd (by omega) hin'
          rw [isWordStart, hbefore] at hstart
          simp at hstart
          omega
      · rcases Nat.lt_or_ge k (src.skipGap (src.identEnd (i + 1) l) l) with hin | hge'
        · rw [not_isWordChar_of_isGap (holds_of_lt_runEnd hge hin)] at hchar
          simp at hchar
        · exact ih hge' hk
  | case3 i hcolon => omega

/-- A word between the start of a block and the place of its temporaries is a parameter. -/
theorem colon_of_blockBodyAt? {bar : Nat} (h : src.blockBodyAt? i l = some bar) (hik : i < k) (hk : k < bar)
    (hchar : src.holds Cell.isWordChar k = true) (hstart : src.isWordStart k = true) :
    src.codeAt (k - 1) ':' = true := by
  have hgap : ∀ {a b}, a ≤ k → k < src.skipGap a b → src.codeAt (k - 1) ':' = true := fun {a b} hak hkb => by
    rw [not_isWordChar_of_isGap (holds_of_lt_runEnd hak hkb)] at hchar
    simp at hchar
  simp only [blockBodyAt?] at h
  split at h
  · obtain rfl := Option.some.inj h
    exact hgap hik hk
  · split at h
    · next hbar =>
      obtain rfl := Option.some.inj h
      rcases Nat.lt_or_ge k (src.skipGap (i + 1) l) with hin | hge
      · exact hgap hik hin
      · rcases Nat.lt_trichotomy k (src.skipParameters (src.skipGap (i + 1) l) l) with hin | rfl | hge'
        · exact colon_of_skipParameters hge hin hchar hstart
        · rw [codeAt_of_isWordChar (by decide) hchar] at hbar
          simp at hbar
        · exact hgap hge' hk
    · simp at h

/-- What the temporaries of a block are. -/
theorem blockTemporariesAt?_iff {sp : Span} :
    src.blockTemporariesAt? i l = some sp ↔ src.codeAt i '[' = true ∧ src.blockBodyAt? i l = some sp.start ∧
      sp.start < l ∧ src.codeAt sp.start '|' = true ∧ ∃ close, sp.stop = close + 1 ∧
        src.find? (·.isCodeChar '|') (sp.start + 1) l = some close ∧
        ∀ k, sp.start < k → k < close →
          src.holds (fun c => c.isCode && (Byte.isIdent c.byte || Byte.isBlank c.byte)) k = true := by
  have hnames : ∀ bar close, (Span.offsets ⟨bar + 1, close⟩).all
      (src.holds fun c => c.isCode && (Byte.isIdent c.byte || Byte.isBlank c.byte)) = true ↔
        ∀ k, bar < k → k < close →
          src.holds (fun c => c.isCode && (Byte.isIdent c.byte || Byte.isBlank c.byte)) k = true := by
    intro bar close
    rw [List.all_eq_true]
    exact ⟨fun h k hk hkc => h k (Span.mem_offsets.2 ⟨hk, hkc⟩),
      fun h k hk => h k (Span.mem_offsets.1 hk).1 (Span.mem_offsets.1 hk).2⟩
  obtain ⟨start, stop⟩ := sp
  simp only [blockTemporariesAt?]
  constructor
  · intro h
    split at h
    · next hopen =>
      split at h
      · simp at h
      · next bar hbody =>
        split at h
        · next hbar =>
          rw [Bool.and_eq_true, decide_eq_true_eq] at hbar
          split at h
          · simp at h
          · next close hclose =>
            split at h
            · next hall =>
              obtain ⟨rfl, rfl⟩ := Span.mk.inj (Option.some.inj h)
              exact ⟨hopen, hbody, hbar.1, hbar.2, close, rfl, hclose, (hnames _ _).1 hall⟩
            · simp at h
        · simp at h
    · simp at h
  · rintro ⟨hopen, hbody, hlt, hbar, close, rfl, hclose, hall⟩
    simp only [hopen, hbody, hbar, hclose, (hnames _ _).2 hall, decide_eq_true hlt, Bool.and_self, if_true]

/-- Only bars, names and white space stand in the temporaries of a block. -/
theorem not_codeAt_of_blockTemporariesAt? {x : Char} {sp : Span} (hx : Byte.isIdent x.toUInt8 = false)
    (hblank : Byte.isBlank x.toUInt8 = false) (hbar : x.toUInt8 ≠ '|'.toUInt8)
    (h : src.blockTemporariesAt? i l = some sp) (hk : sp.start ≤ k) (hkl : k < sp.stop) :
    src.codeAt k x = false := by
  obtain ⟨-, -, -, hopens, close, hstop, hclose, hnames⟩ := blockTemporariesAt?_iff.1 h
  rcases Nat.eq_or_lt_of_le hk with rfl | hgt
  · exact codeAt_ne hbar.symm hopens
  · rcases Nat.lt_or_ge k close with hlt | hge
    · refine holds_eq_of (fun c hc => ?_) (hnames k hgt hlt)
      by_contra hcode
      rw [Bool.not_eq_false, Cell.isCodeChar, Bool.and_eq_true, beq_iff_eq] at hcode
      rw [hcode.2, hx, hblank, Bool.or_self, Bool.and_false] at hc
      simp at hc
    · obtain rfl : k = close := by omega
      exact codeAt_ne hbar.symm (holds_of_find? hclose)

/-! ## After a cut -/

namespace Cut

variable {src : Source} {l r : List Char} (h : src.Cut l r)

include h

theorem codeAt_rest (k : Nat) (x : Char) :
    src.codeAt (String.utf8Len l + k) x = (ofChars r).codeAt k x := h.holds_rest _ k

theorem groupEnd_rest (n : Nesting) (k m : Nat) :
    src.groupEnd n (String.utf8Len l + k) (String.utf8Len l + m) =
      String.utf8Len l + (ofChars r).groupEnd n k m := by
  induction hd : m - k generalizing k n with
  | zero => rw [groupEnd_of_le (by omega), groupEnd_of_le (by omega)]
  | succ d ih =>
    have hnext := fun n' => ih n' (k + 1) (by omega)
    rw [groupEnd_eq (by omega), groupEnd_eq (show k < m by omega),
      codeByte?_congr (h.getElem?_rest k), Nat.add_assoc]
    cases (ofChars r).codeByte? k with
    | none => exact hnext n
    | some b =>
      cases hstep : n.step? b with
      | none => simp only [hstep]
      | some n' =>
        simp only [hstep, hnext]
        split <;> rfl

theorem opensArray_rest (k : Nat) :
    src.opensArray (String.utf8Len l + k) = (ofChars r).opensArray k := by
  rw [opensArray, opensArray, Nat.add_assoc, h.codeAt_rest, h.codeAt_rest, h.codeAt_rest]

theorem literalArraysFrom_rest (k : Nat) :
    src.literalArraysFrom (String.utf8Len l + k) src.size =
      ((ofChars r).literalArraysFrom k (ofChars r).size).map (Span.shift (String.utf8Len l)) := by
  rw [h.size_rest]
  fun_induction literalArraysFrom (ofChars r) k (ofChars r).size with
  | case1 k hlt hopens ih =>
    rw [literalArraysFrom_of_opens (by omega) ((h.opensArray_rest k).trans hopens), Nat.add_assoc,
      h.groupEnd_rest, ih]
    rfl
  | case2 k hlt hopens ih =>
    rw [literalArraysFrom_of_not_opens (by rw [h.opensArray_rest]; simpa using hopens), Nat.add_assoc, ih]
  | case3 k hle => exact literalArraysFrom_of_le (by omega)

theorem skipParameters_rest (k : Nat) :
    src.skipParameters (String.utf8Len l + k) (String.utf8Len l + (ofChars r).size) =
      String.utf8Len l + (ofChars r).skipParameters k (ofChars r).size := by
  have hident := h.runEnd_rest (fun c => Byte.isIdent c.byte)
  have hgap := h.runEnd_rest Cell.isGap
  have hcolon := fun k => h.codeAt_rest k ':'
  fun_induction skipParameters (ofChars r) k (ofChars r).size with
  | case1 k hlt hnone =>
    refine skipParameters_of_none ?_
    rw [identEnd, Nat.add_assoc, hident, ← identEnd, hnone]
  | case2 k hlt hsome ih =>
    rw [Bool.and_eq_true, decide_eq_true_eq] at hlt
    have hend : src.identEnd (String.utf8Len l + k + 1) (String.utf8Len l + (ofChars r).size) =
        String.utf8Len l + (ofChars r).identEnd (k + 1) (ofChars r).size := by
      rw [identEnd, Nat.add_assoc, hident, ← identEnd]
    rw [skipParameters_of_some (by omega) ((hcolon k).trans hlt.2) (by omega), hend, skipGap, hgap,
      ← skipGap, ih]
  | case3 k hlt =>
    rw [Bool.and_eq_true, decide_eq_true_eq, not_and] at hlt
    refine skipParameters_of_not_colon ?_
    rw [hcolon]
    by_contra hcode
    rw [Bool.not_eq_false] at hcode
    exact hlt (lt_size_of_holds hcode) hcode

theorem blockBodyAt?_rest (k : Nat) :
    src.blockBodyAt? (String.utf8Len l + k) (String.utf8Len l + (ofChars r).size) =
      ((ofChars r).blockBodyAt? k (ofChars r).size).map (String.utf8Len l + ·) := by
  have hgap := h.runEnd_rest Cell.isGap
  simp only [blockBodyAt?, skipGap, Nat.add_assoc, hgap, h.skipParameters_rest, h.codeAt_rest,
    Nat.add_left_cancel_iff]
  split
  · next hsame => simp [hsame]
  · next hne => split <;> simp [*]

theorem find?_rest (p : Cell → Bool) (k m : Nat) :
    src.find? p (String.utf8Len l + k) (String.utf8Len l + m) =
      ((ofChars r).find? p k m).map (String.utf8Len l + ·) := by
  simp only [find?, h.runEnd_rest, h.holds_rest, Nat.add_lt_add_iff_left]
  split <;> rfl

theorem blockTemporariesAt?_rest (k : Nat) :
    src.blockTemporariesAt? (String.utf8Len l + k) src.size =
      ((ofChars r).blockTemporariesAt? k (ofChars r).size).map (Span.shift (String.utf8Len l)) := by
  have hall : ∀ p a b, (Span.offsets ⟨String.utf8Len l + a, String.utf8Len l + b⟩).all (src.holds p) =
      (Span.offsets ⟨a, b⟩).all ((ofChars r).holds p) := fun p a b => by
    have hoffsets := Span.offsets_shift (String.utf8Len l) ⟨a, b⟩
    rw [Span.shift] at hoffsets
    rw [hoffsets, List.all_map]
    exact congrArg (List.all _) (funext fun k => h.holds_rest p k)
  rw [h.size_rest]
  simp only [blockTemporariesAt?, h.codeAt_rest, h.blockBodyAt?_rest]
  split
  · cases (ofChars r).blockBodyAt? k (ofChars r).size with
    | none => rfl
    | some bar =>
      simp only [Option.map_some, h.codeAt_rest, Nat.add_lt_add_iff_left, Nat.add_assoc, h.find?_rest]
      split
      · cases (ofChars r).find? (·.isCodeChar '|') (bar + 1) (ofChars r).size with
        | none => rfl
        | some close =>
          simp only [Option.map_some, hall]
          split <;> rfl
      · rfl
  · rfl

end Cut

/-! ## Before an offset -/

/-- Two texts have the same bytes, with the same marks, below an offset that neither of them ends before. -/
structure SameBelow (s t : Source) (i : Nat) : Prop where
  cell : ∀ k < i, t.cells[k]? = s.cells[k]?
  le_left : i ≤ s.size
  le_right : i ≤ t.size

namespace SameBelow

variable {s t : Source} {i : Nat}

theorem symm (h : SameBelow s t i) : SameBelow t s i :=
  ⟨fun k hk => (h.cell k hk).symm, h.le_right, h.le_left⟩

variable (h : SameBelow s t i) {k m : Nat} {n : Nesting} {p : Cell → Bool}
include h

theorem holds (hk : k < i) : t.holds p k = s.holds p k := holds_congr (h.cell k hk)

theorem codeAt {x : Char} (hk : k < i) : t.codeAt k x = s.codeAt k x := h.holds hk

theorem runEnd (hlt : s.runEnd p k s.size < i) : t.runEnd p k t.size = s.runEnd p k s.size := by
  have hle := s.le_runEnd p k s.size
  have hleft := h.le_left
  have hright := h.le_right
  refine runEnd_eq hle (by omega) (fun j hkj hj => ?_) ?_
  · rw [h.holds (by omega)]
    exact holds_of_lt_runEnd hkj hj
  · rw [h.holds hlt]
    exact not_holds_runEnd (by omega)

/-- Parameters are passed over alike, unless a colon stands where they end. -/
theorem skipParameters (hlt : s.skipParameters k s.size < i)
    (hcolon : s.codeAt (s.skipParameters k s.size) ':' = false) :
    t.skipParameters k t.size = s.skipParameters k s.size := by
  have hright := h.le_right
  fun_induction Source.skipParameters s k s.size with
  | case1 k hif hnone =>
    rw [Bool.and_eq_true, hcolon] at hif
    simp at hif
  | case2 k hif hsome ih =>
    rw [Bool.and_eq_true, decide_eq_true_eq] at hif
    have hident := s.le_identEnd (k + 1) s.size
    have hgap := s.le_skipGap (s.identEnd (k + 1) s.size) s.size
    have hrest := s.le_skipParameters (s.skipGap (s.identEnd (k + 1) s.size) s.size) s.size
    have hlt' : s.skipGap (s.identEnd (k + 1) s.size) s.size < i := by omega
    have hend : t.identEnd (k + 1) t.size = s.identEnd (k + 1) s.size :=
      h.runEnd (Nat.lt_of_le_of_lt hgap hlt')
    have hend' : t.skipGap (s.identEnd (k + 1) s.size) t.size =
        s.skipGap (s.identEnd (k + 1) s.size) s.size := h.runEnd hlt'
    rw [skipParameters_of_some (by omega) ((h.codeAt (by omega)).trans hif.2) (by omega), hend, hend']
    exact ih hlt hcolon
  | case3 k hif => exact skipParameters_of_not_colon ((h.codeAt hlt).trans hcolon)

theorem blockBodyAt? {bar : Nat} (hbody : s.blockBodyAt? k s.size = some bar) (hlt : bar < i)
    (hbar : s.codeAt bar '|' = true) : t.blockBodyAt? k t.size = some bar := by
  have hparams := s.le_skipParameters (s.skipGap (k + 1) s.size) s.size
  have hcolon : ∀ {j}, s.codeAt j '|' = true → s.codeAt j ':' = false := codeAt_ne (by decide)
  simp only [Source.blockBodyAt?] at hbody ⊢
  split at hbody
  · next hsame =>
    obtain rfl := Option.some.inj hbody
    have hfirst : t.skipGap (k + 1) t.size = s.skipGap (k + 1) s.size := h.runEnd hlt
    have hcolon' : s.codeAt (s.skipParameters (s.skipGap (k + 1) s.size) s.size) ':' = false := by
      rw [hsame]
      exact hcolon hbar
    rw [hfirst, h.skipParameters (by omega) hcolon', if_pos hsame]
  · next hne =>
    split at hbody
    · next hafter =>
      obtain rfl := Option.some.inj hbody
      have hgap := s.le_skipGap (s.skipParameters (s.skipGap (k + 1) s.size) s.size + 1) s.size
      have hlt' : s.skipGap (k + 1) s.size < i := by omega
      have hfirst : t.skipGap (k + 1) t.size = s.skipGap (k + 1) s.size := h.runEnd hlt'
      have hlast : t.skipGap (s.skipParameters (s.skipGap (k + 1) s.size) s.size + 1) t.size =
          s.skipGap (s.skipParameters (s.skipGap (k + 1) s.size) s.size + 1) s.size := h.runEnd hlt
      rw [hfirst, h.skipParameters (by omega) (hcolon hafter), if_neg hne, h.codeAt (by omega), if_pos hafter,
        hlast]
    · simp at hbody

theorem blockTemporariesAt? {sp : Span} (hblock : s.blockTemporariesAt? k s.size = some sp)
    (hle : sp.stop ≤ i) : t.blockTemporariesAt? k t.size = some sp := by
  have hright := h.le_right
  have hlt := (not_period_of_blockTemporariesAt? hblock).2.1
  obtain ⟨hopen, hbody, -, hbar, close, hstop, hclose, hnames⟩ := blockTemporariesAt?_iff.1 hblock
  have hbounds := s.find?_bounds hclose
  refine blockTemporariesAt?_iff.2 ⟨(h.codeAt (by omega)).trans hopen, h.blockBodyAt? hbody (by omega) hbar,
    by omega, (h.codeAt (by omega)).trans hbar, close, hstop, ?_, fun j hj hjc => ?_⟩
  · refine find?_eq_some hbounds.1 (by omega) ?_ fun j hj hjc => ?_
    · rw [h.holds (by omega)]
      exact holds_of_find? hclose
    · rw [h.holds (by omega)]
      exact not_holds_before_find? hclose hj hjc
  · rw [h.holds (by omega)]
    exact hnames j hj hjc

/-- A group that is closed before the offset is closed at the same place. -/
theorem groupEnd (hle : s.groupEnd n k s.size ≤ i) (hi : i < s.size) :
    t.groupEnd n k t.size = s.groupEnd n k s.size := by
  have hright := h.le_right
  have hcode : k < i → t.codeByte? k = s.codeByte? k := fun hk => codeByte?_congr (h.cell k hk)
  induction hd : s.size - k generalizing k n with
  | zero =>
    rw [groupEnd_of_le (by omega)] at hle
    omega
  | succ d ih =>
    have hk : k < i := Nat.lt_of_lt_of_le (s.lt_groupEnd n (show k < s.size by omega)) hle
    rw [groupEnd_eq (by omega)] at hle ⊢
    rw [groupEnd_eq (show k < s.size by omega), hcode hk]
    cases hb : s.codeByte? k with
    | none =>
      simp only [hb] at hle
      exact ih hle (fun hk => codeByte?_congr (h.cell _ hk)) (by omega)
    | some b =>
      cases hstep : n.step? b with
      | none => simp only [hstep]
      | some n' =>
        simp only [hb, hstep] at hle ⊢
        split
        · rfl
        · next htop =>
          rw [if_neg htop] at hle
          exact ih hle (fun hk => codeByte?_congr (h.cell _ hk)) (by omega)

/-- The literal arrays that start before the offset are the same, if none of those goes on past it. -/
theorem mem_literalArraysFrom (hi : i < s.size) {array : Span}
    (hclear : ∀ a ∈ s.literalArraysFrom k s.size, a.start < i → a.stop ≤ i) (hlt : array.start + 1 < i) :
    array ∈ t.literalArraysFrom k t.size ↔ array ∈ s.literalArraysFrom k s.size := by
  have hright := h.le_right
  rcases Nat.lt_or_ge (k + 1) i with hki | hge
  · have hopens : ∀ {k}, k + 1 < i → t.opensArray k = s.opensArray k := fun hki => by
      rw [opensArray, opensArray, h.codeAt (by omega), h.codeAt hki, h.codeAt hki]
    induction hd : i - k using Nat.strongRecOn generalizing k with
    | ind d ih =>
      have hnext : ∀ {j}, k < j → (∀ a ∈ s.literalArraysFrom j s.size, a.start < i → a.stop ≤ i) →
          (array ∈ t.literalArraysFrom j t.size ↔ array ∈ s.literalArraysFrom j s.size) := by
        intro j hkj hclear
        rcases Nat.lt_or_ge (j + 1) i with hji | hge
        · exact ih (i - j) (by omega) hclear hji rfl
        · refine iff_of_false (fun hmem => ?_) fun hmem => ?_ <;>
            have := le_start_of_mem_literalArraysFrom hmem <;> omega
      cases hcase : s.opensArray k with
      | false =>
        rw [literalArraysFrom_of_not_opens hcase] at hclear ⊢
        rw [literalArraysFrom_of_not_opens ((hopens hki).trans hcase)]
        exact hnext (Nat.lt_succ_self k) hclear
      | true =>
        have hgt := s.lt_groupEnd .empty (show k + 1 < s.size by omega)
        rw [literalArraysFrom_of_opens (by omega) hcase, List.forall_mem_cons] at hclear
        rw [literalArraysFrom_of_opens (by omega) ((hopens hki).trans hcase),
          literalArraysFrom_of_opens (by omega) hcase, h.groupEnd (hclear.1 (by simp only; omega)) hi,
          List.mem_cons, List.mem_cons]
        exact or_congr_right (hnext (by omega) hclear.2)
  · refine iff_of_false (fun hmem => ?_) fun hmem => ?_ <;>
      have := le_start_of_mem_literalArraysFrom hmem <;> omega

end SameBelow

end Source

end MethodBrowser
