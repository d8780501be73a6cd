import MethodBrowser.Proofs.Header.Keywords
import MethodBrowser.Proofs.Source.Clauses

/-!
# Variables in the rest of a text

Where a text is cut into code and no word goes on across the cut, the words of the rest are those of
the rest by itself, and so are the variables mentioned in it (`Source.Cut.occurrences`). So it does
not matter for them what stands before the cut.
-/

namespace MethodBrowser.Source.Cut

variable {src : Source} {l r : List Char} (h : src.Cut l r) {k : Nat}

include h

/-! ## Cells -/

theorem getElem?_rest (k : Nat) :
    src.cells[String.utf8Len l + k]? = (ofChars r).cells[k]? := by
  rw [h.cell, getElem?_ofChars]

theorem holds_rest (p : Cell → Bool) (k : Nat) :
    src.holds p (String.utf8Len l + k) = (ofChars r).holds p k :=
  holds_congr (h.getElem?_rest k)

theorem byteIs_pred_rest (q : UInt8 → Bool) (hk : 0 < k) :
    src.byteIs q (String.utf8Len l + k - 1) = (ofChars r).byteIs q (k - 1) := by
  rw [Nat.add_sub_assoc hk]
  exact h.holds_rest _ _

theorem size_rest : src.size = String.utf8Len l + (ofChars r).size := by
  rw [h.size, size_ofChars]

theorem runEnd_rest (p : Cell → Bool) (k n : Nat) :
    src.runEnd p (String.utf8Len l + k) (String.utf8Len l + n) =
      String.utf8Len l + (ofChars r).runEnd p k n := by
  fun_induction runEnd (ofChars r) p k n with
  | case1 k hlt hholds ih =>
    rw [runEnd_of_holds (by omega) (by rwa [h.holds_rest]), Nat.add_assoc, ih]
  | case2 k hlt hholds =>
    exact runEnd_of_not_holds (by rw [h.holds_rest]; simpa using hholds)
  | case3 k hle => exact runEnd_of_le (by omega)

/-! ## Words -/

omit h in
/-- A text that starts with no identifier character starts with no letter. -/
theorem not_isLetter_of_stops (hr : Header.Stops isIdentRest r) :
    (ofChars r).holds Cell.isLetter 0 = false := by
  by_contra hletter
  rw [Bool.not_eq_false] at hletter
  have hascii : (ofChars r).holds Cell.isAscii 0 = true :=
    holds_of_imp (fun _ hc => Cell.isAscii_of_isIdent
      (Cell.isIdent_of_isWordChar (Cell.isWordChar_of_isLetter hc))) hletter
  obtain ⟨l', c, r', htext, hlen, hc⟩ := cut_of_isAscii hascii
  obtain rfl : l' = [] := String.utf8Len_eq_zero.1 hlen
  have hrest : r = c :: r' := by simpa [ofChars, ofText] using htext
  have hcell := cell_of_cut htext hc
  rw [hlen] at hcell
  rw [holds, hcell, Option.any_some, Cell.isLetter, Bool.and_eq_true, Byte.isIdentStart,
    hc.ofUInt8] at hletter
  rw [Header.Stops, hrest, List.head?_cons, Option.any_some,
    isIdentRest_of_isIdentStart hletter.2] at hr
  simp at hr

theorem isWordStart_rest (hk : 0 < k) :
    src.isWordStart (String.utf8Len l + k) = (ofChars r).isWordStart k := by
  have hpos : (String.utf8Len l + k == 0) = (k == 0) := by grind
  rw [isWordStart, isWordStart, h.byteIs_pred_rest _ hk, hpos]

theorem isCodeSpan_rest (sp : Span) :
    src.isCodeSpan (sp.shift (String.utf8Len l)) = (ofChars r).isCodeSpan sp := by
  have hle : Nat.ble (String.utf8Len l + sp.stop) (String.utf8Len l + (ofChars r).size) =
      Nat.ble sp.stop (ofChars r).size := by
    rw [Bool.eq_iff_iff, Nat.ble_eq, Nat.ble_eq]
    omega
  have hcode : (src.isCode ∘ (String.utf8Len l + ·)) = (ofChars r).isCode :=
    funext fun k => h.holds_rest _ k
  rw [isCodeSpan, isCodeSpan, Span.offsets_shift, List.all_map, hcode, h.size_rest, Span.shift, hle]

theorem wordAt?_rest (hr : Header.Stops isIdentRest r) (k : Nat) :
    src.wordAt? (String.utf8Len l + k) src.size =
      ((ofChars r).wordAt? k (ofChars r).size).map (Span.shift (String.utf8Len l)) := by
  have hletter := h.holds_rest Cell.isLetter k
  rcases Nat.eq_zero_or_pos k with rfl | hk
  · rw [wordAt?_eq, wordAt?_eq, hletter, not_isLetter_of_stops hr]
    simp
  · have hend := h.runEnd_rest (fun c => Byte.isIdent c.byte) k (ofChars r).size
    have hcode := h.isCodeSpan_rest ⟨k, (ofChars r).identEnd k (ofChars r).size⟩
    have hlimit : decide (String.utf8Len l + k < String.utf8Len l + (ofChars r).size) =
        decide (k < (ofChars r).size) := by grind
    rw [Span.shift, identEnd] at hcode
    rw [wordAt?_eq, wordAt?_eq, identEnd, identEnd, h.size_rest, hend, hcode, hletter,
      h.isWordStart_rest hk, hlimit]
    split <;> rfl

/-! ## Variables -/

theorem isKeywordColon_rest (k : Nat) :
    src.isKeywordColon (String.utf8Len l + k) = (ofChars r).isKeywordColon k := by
  have hcode : ∀ ch k, src.codeAt (String.utf8Len l + k) ch = (ofChars r).codeAt k ch :=
    fun _ k => h.holds_rest _ k
  rw [isKeywordColon, isKeywordColon, isAssignment, isAssignment, Nat.add_assoc, hcode,
    hcode]

theorem slice_word_rest {word : Span}
    (hword : (ofChars r).wordAt? k (ofChars r).size = some word) :
    src.slice (word.shift (String.utf8Len l)) = (ofChars r).slice word := by
  obtain ⟨-, -, -, rfl⟩ := wordAt?_eq_some hword
  have hchar : ∀ j, k + j < (ofChars r).identEnd k (ofChars r).size →
      (ofChars r).holds Cell.isWordChar (k + j) = true := fun j hj =>
    isWordChar_of_wordAt? hword (Nat.le_add_right k j) hj
  obtain ⟨n, hn⟩ := Nat.exists_eq_add_of_le ((ofChars r).le_identEnd k (ofChars r).size)
  rw [hn] at hchar ⊢
  rw [Span.shift, ← Nat.add_assoc]
  refine slice_congr (fun j hj => ?_) fun j _ => ?_
  · exact holds_of_imp (fun _ hc => Cell.isAscii_of_isIdent (Cell.isIdent_of_isWordChar hc))
      (hchar j (Nat.add_lt_add_left hj k))
  · rw [Nat.add_assoc, h.getElem?_rest]

theorem isVariable_rest (hr : Header.Stops isIdentRest r) {name : String} {word : Span}
    (hword : (ofChars r).wordAt? k (ofChars r).size = some word) :
    src.isVariable name (word.shift (String.utf8Len l)) = (ofChars r).isVariable name word := by
  obtain ⟨-, hletter, -, -⟩ := wordAt?_eq_some hword
  obtain rfl := ((ofChars r).wordAt?_bounds hword).1
  have hstart : 0 < word.start := by
    rw [Nat.pos_iff_ne_zero]
    intro hzero
    rw [hzero, not_isLetter_of_stops hr] at hletter
    simp at hletter
  have hpos : Nat.blt 0 (String.utf8Len l + word.start) = Nat.blt 0 word.start := by
    rw [Bool.eq_iff_iff, Nat.blt_eq, Nat.blt_eq]
    omega
  rw [isVariable, isVariable, h.slice_word_rest hword]
  simp only [Span.shift, h.isKeywordColon_rest, h.byteIs_pred_rest _ hstart, hpos]

/-- The variables mentioned after a cut are those of the rest by itself. -/
theorem occurrences (hr : Header.Stops isIdentRest r) (name : String) :
    src.occurrences name ⟨String.utf8Len l, src.size⟩ =
      ((ofChars r).occurrences name (ofChars r).span).map (Span.shift (String.utf8Len l)) := by
  have hwords : src.words ⟨String.utf8Len l, src.size⟩ =
      ((ofChars r).words (ofChars r).span).map (Span.shift (String.utf8Len l)) := by
    have hoffsets := Span.offsets_shift (String.utf8Len l) (ofChars r).span
    rw [Span.shift, Source.span, Nat.add_zero, ← h.size_rest] at hoffsets
    rw [words, hoffsets, List.filterMap_map, words, List.map_filterMap]
    exact List.filterMap_congr fun k _ => h.wordAt?_rest hr k
  rw [Source.occurrences, hwords, List.filter_map, Source.occurrences]
  refine congrArg _ (List.filter_congr fun word hmem => ?_)
  obtain ⟨k, -, hword⟩ := List.mem_filterMap.1 hmem
  exact h.isVariable_rest hr hword

end MethodBrowser.Source.Cut
