import Mathlib.Data.String.Basic
import Mathlib.Tactic.Common
import MethodBrowser.Proofs.Source.Alignment

/-!
# Texts and their cells

Scanners see bytes, edits splice characters. This module relates the two: where the cells of a
source are ASCII, its text can be cut there, and the text of a span is spelled by its cells.

**Cutting.** A text is cut at an offset when some of its characters take up just that many bytes.
The first byte of an ASCII character is its only one, and the bytes of all other characters are
out of the range of ASCII; so a text can be cut before and after each ASCII cell.
-/

namespace MethodBrowser

/-! ## Bytes of characters -/

/-- A character of one byte. -/
def IsAscii (c : Char) : Prop := c.toNat < 128

instance (c : Char) : Decidable (IsAscii c) := inferInstanceAs (Decidable (c.toNat < 128))

theorem IsAscii.utf8EncodeChar {c : Char} (h : IsAscii c) :
    String.utf8EncodeChar c = [c.toUInt8] := by
  refine String.utf8EncodeChar_eq_singleton ?_
  rw [Char.utf8Size_eq_one_iff, UInt32.le_iff_toNat_le]
  exact Nat.le_of_lt_succ h

theorem IsAscii.utf8Size {c : Char} (h : IsAscii c) : c.utf8Size = 1 := by
  rw [← String.length_utf8EncodeChar, h.utf8EncodeChar]
  rfl

/-- Reading a byte back as a character. -/
theorem IsAscii.ofUInt8 {c : Char} (h : IsAscii c) : Char.ofUInt8 c.toUInt8 = c := by
  have hlt : c.toNat < 256 := Nat.lt_trans h (by decide)
  rw [← Char.toNat_inj]
  change c.val.toUInt8.toUInt32.toNat = c.toNat
  rw [UInt8.toNat_toUInt32, UInt32.toNat_toUInt8]
  exact Nat.mod_eq_of_lt hlt

theorem IsAscii.toUInt8_inj {c d : Char} (hc : IsAscii c) (hd : IsAscii d)
    (h : c.toUInt8 = d.toUInt8) : c = d := by
  rw [← hc.ofUInt8, ← hd.ofUInt8, h]

/-- The bytes of other characters are no ASCII bytes. -/
theorem le_of_mem_utf8EncodeChar {c : Char} (h : ¬IsAscii c) {b : UInt8}
    (hb : b ∈ String.utf8EncodeChar c) : 128 ≤ b.toNat := by
  have hval : ¬c.val.toNat ≤ 127 := fun hle => h (Nat.lt_succ_of_le hle)
  simp only [String.utf8EncodeChar, hval, if_false] at hb
  split at hb
  · simp only [List.mem_cons, List.not_mem_nil, or_false] at hb
    rcases hb with rfl | rfl <;> simp only [UInt8.toNat_ofNat'] <;> omega
  · split at hb
    · simp only [List.mem_cons, List.not_mem_nil, or_false] at hb
      rcases hb with rfl | rfl | rfl <;> simp only [UInt8.toNat_ofNat'] <;> omega
    · simp only [List.mem_cons, List.not_mem_nil, or_false] at hb
      rcases hb with rfl | rfl | rfl | rfl <;> simp only [UInt8.toNat_ofNat'] <;> omega

theorem utf8Len_of_ascii {cs : List Char} (h : ∀ c ∈ cs, IsAscii c) :
    String.utf8Len cs = cs.length := by
  induction cs with
  | nil => rfl
  | cons c cs ih =>
    rw [List.forall_mem_cons] at h
    rw [String.utf8Len_cons, ih h.2, h.1.utf8Size, List.length_cons]

theorem toNat_ofUInt8 (b : UInt8) : (Char.ofUInt8 b).toNat = b.toNat := by
  change b.toUInt32.toNat = b.toNat
  exact UInt8.toNat_toUInt32 b

theorem isAscii_of_isIdentRest {c : Char} (h : isIdentRest c = true) : IsAscii c := by
  simp only [isIdentRest, Char.isAlphanum, Bool.or_eq_true, beq_iff_eq, isAlpha_iff,
    isDigit_iff] at h
  unfold IsAscii
  rcases h with (h | h) | rfl
  · omega
  · omega
  · decide

/-- What can be checked for all characters of binary selectors. -/
theorem of_isBinaryChar {p : Char → Bool} (hall : binaryChars.all p = true) {c : Char}
    (h : isBinaryChar c = true) : p c = true :=
  List.all_eq_true.1 hall c (by simpa [isBinaryChar] using h)

theorem isAscii_of_isBinaryChar {c : Char} (h : isBinaryChar c = true) : IsAscii c := by
  have hsmall : c.toNat < 128 := of_decide_eq_true
    (of_isBinaryChar (p := fun c => decide (c.toNat < 128)) (by decide) h)
  exact hsmall

/-! ## Reading on -/

/-- The mode after some characters. -/
def Mode.after : Mode → List Char → Mode
  | m, [] => m
  | m, c :: cs => (m.next c).after cs

theorem Mode.after_append (m : Mode) (l r : List Char) :
    m.after (l ++ r) = (m.after l).after r := by
  induction l generalizing m with
  | nil => rfl
  | cons c l ih => exact ih (m.next c)

theorem classify_append (m : Mode) (l r : List Char) :
    classify m (l ++ r) = classify m l ++ classify (m.after l) r := by
  induction l generalizing m with
  | nil => rfl
  | cons c l ih =>
    simp only [List.cons_append, classify, Mode.after, List.append_assoc, ih]

theorem length_classify (m : Mode) (cs : List Char) :
    (classify m cs).length = String.utf8Len cs := by
  induction cs generalizing m with
  | nil => rfl
  | cons c cs ih =>
    simp only [classify, List.length_append, List.length_map, String.length_utf8EncodeChar, ih,
      String.utf8Len_cons]
    omega

/-- A character that reads as code and leaves the reader there. -/
def IsPlain (c : Char) : Prop := IsAscii c ∧ c ≠ '\'' ∧ c ≠ '"' ∧ c ≠ '$'

instance (c : Char) : Decidable (IsPlain c) := inferInstanceAs (Decidable (_ ∧ _))

theorem IsPlain.kind {c : Char} (h : IsPlain c) : Mode.code.kind c = .code := by
  unfold Mode.kind
  split <;> simp_all [IsPlain]

theorem IsPlain.next {c : Char} (h : IsPlain c) : Mode.code.next c = .code := by
  unfold Mode.next
  split <;> simp_all [IsPlain]

theorem after_of_plain {cs : List Char} (h : ∀ c ∈ cs, IsPlain c) :
    Mode.code.after cs = .code := by
  induction cs with
  | nil => rfl
  | cons c cs ih =>
    rw [List.forall_mem_cons] at h
    rw [Mode.after, h.1.next, ih h.2]

theorem isPlain_of_isIdentRest {c : Char} (h : isIdentRest c = true) : IsPlain c := by
  refine ⟨isAscii_of_isIdentRest h, ?_, ?_, ?_⟩ <;> rintro rfl <;> exact absurd h (by decide)

theorem isIdentRest_of_isIdentStart {c : Char} (h : isIdentStart c = true) :
    isIdentRest c = true := by
  simp only [isIdentStart, isIdentRest, Char.isAlphanum, Bool.or_eq_true] at h ⊢
  tauto

/-- All characters of an identifier may go on with an identifier. -/
theorem isIdentRest_of_isIdentifier {cs : List Char} (h : isIdentifier cs = true) :
    ∀ c ∈ cs, isIdentRest c = true := by
  cases cs with
  | nil => simp
  | cons c cs =>
    rw [isIdentifier, Bool.and_eq_true, List.all_eq_true] at h
    exact List.forall_mem_cons.2 ⟨isIdentRest_of_isIdentStart h.1, h.2⟩

theorem utf8Len_of_isIdentifier {cs : List Char} (h : isIdentifier cs = true) :
    String.utf8Len cs = cs.length :=
  utf8Len_of_ascii fun c hc => isAscii_of_isIdentRest (isIdentRest_of_isIdentifier h c hc)

theorem isIdentStart_of_isIdentifier {cs : List Char} (h : isIdentifier cs = true)
    (hlen : 0 < cs.length) : isIdentStart (cs.get ⟨0, hlen⟩) = true := by
  cases cs with
  | nil => simp at hlen
  | cons c cs =>
    rw [isIdentifier, Bool.and_eq_true] at h
    exact h.1

/-- The cells of plain characters. -/
theorem classify_of_plain {cs : List Char} (h : ∀ c ∈ cs, IsPlain c) :
    classify .code cs = cs.map fun c => ⟨c.toUInt8, .code⟩ := by
  induction cs with
  | nil => rfl
  | cons c cs ih =>
    rw [List.forall_mem_cons] at h
    rw [classify, h.1.1.utf8EncodeChar, h.1.kind, h.1.next, ih h.2]
    rfl

/-! ## Cutting a text -/

/-- An ASCII cell is the cell of an ASCII character. -/
theorem classify_cut {m : Mode} {cs : List Char} {i : Nat} {cell : Cell}
    (h : (classify m cs)[i]? = some cell) (hcell : cell.byte.toNat < 128) :
    ∃ l c r, cs = l ++ c :: r ∧ String.utf8Len l = i ∧ IsAscii c ∧
      cell = ⟨c.toUInt8, (m.after l).kind c⟩ := by
  induction cs generalizing m i with
  | nil => simp [classify] at h
  | cons c cs ih =>
    rw [classify] at h
    by_cases hi : i < c.utf8Size
    · -- The cell is a byte of `c`, so `c` is an ASCII character.
      rw [List.getElem?_append_left (by simpa using hi), List.getElem?_map,
        Option.map_eq_some_iff] at h
      obtain ⟨b, hb, rfl⟩ := h
      have hc : IsAscii c := by
        by_contra hc
        have := le_of_mem_utf8EncodeChar hc (List.mem_of_getElem? hb)
        simp only at hcell
        omega
      rw [hc.utf8EncodeChar] at hb
      rw [hc.utf8Size] at hi
      obtain rfl : i = 0 := by omega
      simp only [List.getElem?_cons_zero, Option.some.injEq] at hb
      exact ⟨[], c, cs, rfl, rfl, hc, by rw [← hb]; rfl⟩
    · rw [List.getElem?_append_right (by simpa using hi), List.length_map,
        String.length_utf8EncodeChar] at h
      obtain ⟨l, c', r, rfl, hlen, hc', hcell'⟩ := ih h
      exact ⟨c :: l, c', r, rfl, by rw [String.utf8Len_cons]; omega, hc', hcell'⟩

/-- Two cuts of a text, the first one not after the second. -/
theorem append_eq_append_of_le {l₁ r₁ l₂ r₂ : List Char} (h : l₁ ++ r₁ = l₂ ++ r₂)
    (hle : String.utf8Len l₁ ≤ String.utf8Len l₂) : ∃ m, l₂ = l₁ ++ m ∧ r₁ = m ++ r₂ := by
  rcases List.append_eq_append_iff.1 h with ⟨m, rfl, rfl⟩ | ⟨m, rfl, rfl⟩
  · exact ⟨m, rfl, rfl⟩
  · have hm : m = [] := by
      rw [String.utf8Len_append] at hle
      rw [← String.utf8Len_eq_zero]
      omega
    exact ⟨[], by simp [hm], by simp [hm]⟩


theorem append_inj_of_utf8Len {l₁ r₁ l₂ r₂ : List Char} (h : l₁ ++ r₁ = l₂ ++ r₂)
    (hlen : String.utf8Len l₁ = String.utf8Len l₂) : l₁ = l₂ ∧ r₁ = r₂ := by
  obtain ⟨m, rfl, rfl⟩ := append_eq_append_of_le h (Nat.le_of_eq hlen)
  have hm : m = [] := by
    rw [String.utf8Len_append] at hlen
    rw [← String.utf8Len_eq_zero]
    omega
  simp [hm]

/-- Only in code mode is anything marked as code. -/
theorem Mode.eq_code_of_kind {m : Mode} {c : Char} (h : m.kind c = .code) : m = .code := by
  cases m <;> simp_all [Mode.kind]

namespace Cell

/-- The cell holds an ASCII character. -/
def isAscii (c : Cell) : Bool := decide (c.byte.toNat < 128)

theorem isAscii_of_isIdent {c : Cell} (h : Byte.isIdent c.byte = true) : c.isAscii = true := by
  have hc : IsAscii (Char.ofUInt8 c.byte) := isAscii_of_isIdentRest h
  rw [IsAscii, toNat_ofUInt8] at hc
  simpa [isAscii] using hc

theorem isAscii_of_isBinary {c : Cell} (h : Byte.isBinary c.byte = true) : c.isAscii = true := by
  have hc : IsAscii (Char.ofUInt8 c.byte) := isAscii_of_isBinaryChar h
  rw [IsAscii, toNat_ofUInt8] at hc
  simpa [isAscii] using hc

end Cell

namespace Source

variable {src : Source} {i n : Nat}

theorem size_eq (src : Source) : src.size = String.utf8Len src.text.toList := by
  rw [← length_classify .code, ← src.cells_eq]
  rfl

theorem getElem?_cells (src : Source) (i : Nat) :
    src.cells[i]? = (classify .code src.text.toList)[i]? := by
  rw [← src.cells_eq, Array.getElem?_toList]

/-- The cell of the character at a cut. -/
theorem cell_of_cut {l r : List Char} {c : Char} (h : src.text.toList = l ++ c :: r)
    (hc : IsAscii c) :
    src.cells[String.utf8Len l]? = some ⟨c.toUInt8, (Mode.code.after l).kind c⟩ := by
  rw [getElem?_cells, h, classify_append,
    List.getElem?_append_right (by rw [length_classify]), length_classify, Nat.sub_self,
    classify, hc.utf8EncodeChar]
  rfl

theorem cells_of_cut {l w r : List Char} (h : src.text.toList = l ++ w ++ r)
    (hw : ∀ c ∈ w, IsAscii c) {k : Nat} (hk : k < w.length) :
    src.cells[String.utf8Len l + k]? =
      some ⟨(w.get ⟨k, hk⟩).toUInt8, (Mode.code.after (l ++ w.take k)).kind (w.get ⟨k, hk⟩)⟩ := by
  have hlen : String.utf8Len (l ++ w.take k) = String.utf8Len l + k := by
    rw [String.utf8Len_append, utf8Len_of_ascii fun c hc => hw c (List.mem_of_mem_take hc),
      List.length_take, Nat.min_eq_left (Nat.le_of_lt hk)]
  rw [← hlen]
  refine cell_of_cut (r := w.drop (k + 1) ++ r) ?_ (hw _ (List.get_mem ..))
  rw [h, List.append_assoc, List.append_assoc]
  congr 1
  rw [← List.cons_append, List.get_eq_getElem, List.getElem_cons_drop, ← List.append_assoc,
    List.take_append_drop]

/-- The text can be cut at an ASCII cell. -/
theorem cut_of_isAscii (h : src.holds Cell.isAscii i = true) :
    ∃ l c r, src.text.toList = l ++ c :: r ∧ String.utf8Len l = i ∧ IsAscii c := by
  simp only [holds, Option.any_eq_true, Cell.isAscii, decide_eq_true_eq] at h
  obtain ⟨cell, hcell, hbyte⟩ := h
  rw [getElem?_cells] at hcell
  obtain ⟨l, c, r, htext, hlen, hascii, -⟩ := classify_cut hcell hbyte
  exact ⟨l, c, r, htext, hlen, hascii⟩

/-- The text can be cut before and after a run of ASCII cells. -/
theorem cut_of_run (hn : 0 < n) (h : ∀ k < n, src.holds Cell.isAscii (i + k) = true) :
    ∃ l w r, src.text.toList = l ++ w ++ r ∧ String.utf8Len l = i ∧ w.length = n ∧
      ∀ c ∈ w, IsAscii c := by
  induction n, hn using Nat.le_induction with
  | base =>
    obtain ⟨l, c, r, htext, hlen, hascii⟩ := cut_of_isAscii (h 0 (by omega))
    exact ⟨l, [c], r, by simpa using htext, hlen, rfl, by simpa using hascii⟩
  | succ n hn ih =>
    obtain ⟨l, w, r, htext, hlen, hw, hascii⟩ := ih fun k hk => h k (by omega)
    obtain ⟨l', c, r', htext', hlen', hascii'⟩ := cut_of_isAscii (h n (by omega))
    have hsame : String.utf8Len (l ++ w) = String.utf8Len l' := by
      rw [String.utf8Len_append, utf8Len_of_ascii hascii]
      omega
    obtain ⟨rfl, rfl⟩ := append_inj_of_utf8Len (htext.symm.trans htext') hsame
    refine ⟨l, w ++ [c], r', by simpa using htext', hlen, by simpa using hw, ?_⟩
    exact List.forall_mem_append.2 ⟨hascii, by simpa using hascii'⟩

/-- The text between two cuts. -/
theorem slice_of_cut {l w r : List Char} (h : src.text.toList = l ++ w ++ r) :
    src.slice ⟨String.utf8Len l, String.utf8Len l + String.utf8Len w⟩ = String.ofList w := by
  have htext : src.text = String.ofList (l ++ w ++ r) := by rw [← h, String.ofList_toList]
  rw [slice, htext]
  exact String.extract_of_valid l w r

/-- The text of a run of ASCII cells is spelled by them. -/
theorem exists_spelling (h : ∀ k < n, src.holds Cell.isAscii (i + k) = true) :
    ∃ w, src.slice ⟨i, i + n⟩ = String.ofList w ∧ w.length = n ∧ (∀ c ∈ w, IsAscii c) ∧
      ∀ k (hk : k < w.length), src.cells[i + k]?.map (·.byte) = some (w.get ⟨k, hk⟩).toUInt8 := by
  rcases Nat.eq_zero_or_pos n with rfl | hn
  · exact ⟨[], by simp [slice, String.Pos.Raw.extract], rfl, by simp, by simp⟩
  · obtain ⟨l, w, r, htext, rfl, rfl, hascii⟩ := cut_of_run hn h
    refine ⟨w, by rw [← utf8Len_of_ascii hascii, slice_of_cut htext], rfl, hascii, ?_⟩
    intro k hk
    rw [cells_of_cut htext hascii hk]
    rfl

/-- ASCII text is spelled alike where the cells are the same. -/
theorem slice_congr {s t : Source} {j : Nat}
    (h : ∀ k < n, s.holds Cell.isAscii (i + k) = true)
    (hcells : ∀ k < n, t.cells[j + k]? = s.cells[i + k]?) :
    t.slice ⟨j, j + n⟩ = s.slice ⟨i, i + n⟩ := by
  have h' : ∀ k < n, t.holds Cell.isAscii (j + k) = true := fun k hk =>
    (holds_congr (hcells k hk)).trans (h k hk)
  obtain ⟨w, hw, hlen, hascii, hspell⟩ := exists_spelling h
  obtain ⟨w', hw', hlen', hascii', hspell'⟩ := exists_spelling h'
  rw [hw, hw']
  congr 1
  refine List.ext_getElem (by omega) fun k hk' hk => ?_
  have hbyte : (w'.get ⟨k, hk'⟩).toUInt8 = (w.get ⟨k, hk⟩).toUInt8 := by
    have := hspell' k hk'
    rw [hcells k (by omega), hspell k hk] at this
    exact (Option.some.inj this).symm
  have hchar := congrArg Char.ofUInt8 hbyte
  rwa [(hascii' _ (List.get_mem ..)).ofUInt8, (hascii _ (List.get_mem ..)).ofUInt8] at hchar

/-- The text of a span whose bytes are those of some ASCII characters. -/
theorem slice_eq_of_bytes {w : List Char} (hw : ∀ c ∈ w, IsAscii c)
    (h : ∀ k (hk : k < w.length),
      src.cells[i + k]?.map (·.byte) = some (w.get ⟨k, hk⟩).toUInt8) :
    src.slice ⟨i, i + w.length⟩ = String.ofList w := by
  have hascii : ∀ k < w.length, src.holds Cell.isAscii (i + k) = true := by
    intro k hk
    obtain ⟨cell, hcell, hbyte⟩ := Option.map_eq_some_iff.1 (h k hk)
    have hlt := hw _ (List.get_mem w ⟨k, hk⟩)
    rw [holds, hcell, Option.any_some, Cell.isAscii, hbyte, decide_eq_true_eq,
      ← toNat_ofUInt8, IsAscii.ofUInt8 hlt]
    exact hlt
  obtain ⟨w', hslice, hlen, hascii', hbytes⟩ := exists_spelling hascii
  rw [hslice]
  congr 1
  refine List.ext_getElem hlen fun k hk' hk => ?_
  have hbyte := (hbytes k hk').symm.trans (h k hk)
  have hchar := congrArg Char.ofUInt8 (Option.some.inj hbyte)
  rwa [(hascii' _ (List.get_mem ..)).ofUInt8, (hw _ (List.get_mem ..)).ofUInt8] at hchar

end Source

end MethodBrowser
