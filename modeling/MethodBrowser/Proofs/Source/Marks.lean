import MethodBrowser.Proofs.Source.Text
import MethodBrowser.Source.Marks

/-!
# The loop over bytes marks what the reader of characters marks

`marks` reads bytes and `classify` reads characters; they mark each text alike (`marks_eq`).

**Signs.** In each of its states the loop waits for a few ASCII characters. Any other character,
however many bytes it has, holds none of their bytes, so all of its bytes get the mark of the state
and the state stays (`marksFrom_character`).

**Lookahead and jump.** A doubled quote is two characters of a string for both. The loop skips it in
one step; the reader of characters leaves the string and enters it again. Behind `$` the loop jumps
over the character that the reader takes in mode `Mode.character`. So the induction is on the number
of characters that are left, of which one step may take two.
-/

namespace MethodBrowser

namespace ByteState

/-- The mode in which the next character is read. -/
def mode : ByteState → Mode
  | code => .code
  | string => .string
  | comment => .comment

/-- The mark of what is no sign. -/
def kind : ByteState → Kind
  | code => .code
  | string => .string
  | comment => .comment

/-- The characters that the loop waits for. -/
def signs : ByteState → List Char
  | code => ['\'', '"', '$']
  | string => ['\'']
  | comment => ['"']

variable {state : ByteState} {c : Char} {b : UInt8}

theorem isAscii_of_mem_signs (h : c ∈ state.signs) : IsAscii c := by
  cases state with
  | code =>
    simp only [signs, List.mem_cons, List.not_mem_nil, or_false] at h
    rcases h with rfl | rfl | rfl
    · decide
    · decide
    · decide
  | string =>
    obtain rfl := List.mem_singleton.1 h
    decide
  | comment =>
    obtain rfl := List.mem_singleton.1 h
    decide

/-- A character that is no sign has no byte of one. -/
theorem ne_of_mem_utf8EncodeChar (hc : c ∉ state.signs) (hb : b ∈ String.utf8EncodeChar c) :
    ∀ sign ∈ state.signs, b ≠ sign.toUInt8 := by
  intro sign hsign heq
  have hascii := isAscii_of_mem_signs hsign
  by_cases h : IsAscii c
  · rw [h.utf8EncodeChar, List.mem_singleton] at hb
    exact hc ((h.toUInt8_inj hascii (hb.symm.trans heq)) ▸ hsign)
  · have hbyte : 128 ≤ b.toNat := le_of_mem_utf8EncodeChar h hb
    have hsmall : sign.toUInt8.toNat < 128 := by
      rw [← toNat_ofUInt8, hascii.ofUInt8]
      exact hascii
    rw [heq] at hbyte
    exact absurd hsmall (Nat.not_lt.2 hbyte)

/-- A character that is no sign is marked by the state and does not change it. -/
theorem mode_of_not_mem_signs (hc : c ∉ state.signs) :
    state.mode.kind c = state.kind ∧ state.mode.next c = state.mode := by
  cases state with
  | code =>
    simp only [signs, List.mem_cons, List.not_mem_nil, or_false, not_or] at hc
    simp only [mode, kind]
    constructor
    · unfold Mode.kind
      split <;> simp_all
    · unfold Mode.next
      split <;> simp_all
  | string =>
    simp only [signs, List.mem_singleton] at hc
    simp only [mode, kind]
    constructor
    · rfl
    · unfold Mode.next
      split <;> simp_all
  | comment =>
    simp only [signs, List.mem_singleton] at hc
    simp only [mode, kind]
    constructor
    · rfl
    · unfold Mode.next
      split <;> simp_all

end ByteState

/-! ## The bytes of a text -/

section

variable {text : String} {l r cs : List Char} {c : Char} {i k : Nat} {b : UInt8} {state : ByteState}

theorem getElem?_toByteArray (text : String) (i : Nat) :
    text.toByteArray[i]? = (text.toList.flatMap String.utf8EncodeChar)[i]? := by
  have hbytes : text.toByteArray = (text.toList.flatMap String.utf8EncodeChar).toByteArray := by
    conv_lhs => rw [← String.ofList_toList (s := text)]
    exact String.toByteArray_ofList
  rw [hbytes]
  by_cases hi : i < (text.toList.flatMap String.utf8EncodeChar).length
  · rw [getElem?_pos _ _ (by rwa [List.size_toByteArray]), List.getElem_toByteArray,
      List.getElem?_eq_getElem hi]
  · rw [getElem?_neg _ _ (by rwa [List.size_toByteArray]),
      List.getElem?_eq_none (Nat.le_of_not_lt hi)]

theorem length_flatMap_utf8EncodeChar (cs : List Char) :
    (cs.flatMap String.utf8EncodeChar).length = String.utf8Len cs := by
  induction cs with
  | nil => rfl
  | cons c cs ih =>
    rw [List.flatMap_cons, List.length_append, String.length_utf8EncodeChar, ih, String.utf8Len_cons,
      Nat.add_comm]

/-- The bytes behind a cut. -/
theorem byte_after (h : text.toList = l ++ r) (k : Nat) :
    text.toByteArray[String.utf8Len l + k]? = (r.flatMap String.utf8EncodeChar)[k]? := by
  rw [getElem?_toByteArray, h, List.flatMap_append, List.getElem?_append_right (by
    rw [length_flatMap_utf8EncodeChar]
    exact Nat.le_add_right _ _), length_flatMap_utf8EncodeChar, Nat.add_sub_cancel_left]

/-- The bytes of the character behind a cut. -/
theorem byte_of_character (h : text.toList = l ++ c :: cs) (hk : k < c.utf8Size) :
    text.toByteArray[String.utf8Len l + k]? = (String.utf8EncodeChar c)[k]? := by
  rw [byte_after h, List.flatMap_cons, List.getElem?_append_left (by
    rwa [String.length_utf8EncodeChar])]

theorem byte_of_ascii (h : text.toList = l ++ c :: cs) (hc : IsAscii c) :
    text.toByteArray[String.utf8Len l]? = some c.toUInt8 := by
  have hbyte := byte_of_character (k := 0) h c.utf8Size_pos
  rwa [hc.utf8EncodeChar] at hbyte

theorem utf8Len_concat (l : List Char) (c : Char) :
    String.utf8Len (l ++ [c]) = String.utf8Len l + c.utf8Size := by
  rw [String.utf8Len_append, String.utf8Len_cons, String.utf8Len_nil, Nat.zero_add]

theorem utf8Len_concat_ascii (hc : IsAscii c) (l : List Char) :
    String.utf8Len (l ++ [c]) = String.utf8Len l + 1 := by
  rw [utf8Len_concat, hc.utf8Size]

/-! ## Steps of the loop -/

/-- A byte that belongs to no sign. -/
theorem marksFrom_of_ne (hb : text.toByteArray[i]? = some b)
    (hne : ∀ sign ∈ state.signs, b ≠ sign.toUInt8) :
    marksFrom text state i = state.kind :: marksFrom text state (i + 1) := by
  obtain ⟨hi, rfl⟩ := getElem?_eq_some_iff.1 hb
  rw [marksFrom, dif_pos hi]
  cases state with
  | code =>
    simp only [ByteState.signs, List.forall_mem_cons] at hne
    simp [hne.1, hne.2.1, hne.2.2.1, ByteState.kind]
  | string =>
    simp only [ByteState.signs, List.forall_mem_cons] at hne
    simp [hne.1, ByteState.kind]
  | comment =>
    simp only [ByteState.signs, List.forall_mem_cons] at hne
    simp [hne.1, ByteState.kind]

/-- Bytes that belong to no sign. -/
theorem marksFrom_replicate (h : ∀ j < k, ∃ b, text.toByteArray[i + j]? = some b ∧
    ∀ sign ∈ state.signs, b ≠ sign.toUInt8) :
    marksFrom text state i = List.replicate k state.kind ++ marksFrom text state (i + k) := by
  induction k generalizing i with
  | zero => rfl
  | succ k ih =>
    obtain ⟨b, hb, hne⟩ := h 0 (Nat.succ_pos k)
    have hrest : ∀ j < k, ∃ b, text.toByteArray[i + 1 + j]? = some b ∧
        ∀ sign ∈ state.signs, b ≠ sign.toUInt8 := by
      intro j hj
      rw [Nat.add_assoc, Nat.add_comm 1 j]
      exact h (j + 1) (Nat.succ_lt_succ hj)
    rw [Nat.add_zero] at hb
    rw [marksFrom_of_ne hb hne, ih hrest, List.replicate_succ, List.cons_append, Nat.add_assoc,
      Nat.add_comm 1 k]

/-- A character that is no sign. -/
theorem marksFrom_character (h : text.toList = l ++ c :: cs) (hc : c ∉ state.signs) :
    marksFrom text state (String.utf8Len l) =
      List.replicate c.utf8Size state.kind ++ marksFrom text state (String.utf8Len (l ++ [c])) := by
  rw [utf8Len_concat]
  refine marksFrom_replicate fun j hj => ?_
  have hlt : j < (String.utf8EncodeChar c).length := by rwa [String.length_utf8EncodeChar]
  refine ⟨(String.utf8EncodeChar c)[j], ?_,
    ByteState.ne_of_mem_utf8EncodeChar hc (List.getElem_mem hlt)⟩
  rw [byte_of_character h hj, List.getElem?_eq_getElem hlt]

/-! ## Signs -/

theorem marksFrom_quote (h : text.toList = l ++ '\'' :: cs) :
    marksFrom text .code (String.utf8Len l) =
      .string :: marksFrom text .string (String.utf8Len l + 1) := by
  obtain ⟨hi, hbyte⟩ := getElem?_eq_some_iff.1 (byte_of_ascii h (by decide))
  rw [marksFrom, dif_pos hi]
  simp [hbyte]

theorem marksFrom_doubleQuote (h : text.toList = l ++ '"' :: cs) :
    marksFrom text .code (String.utf8Len l) =
      .comment :: marksFrom text .comment (String.utf8Len l + 1) := by
  obtain ⟨hi, hbyte⟩ := getElem?_eq_some_iff.1 (byte_of_ascii h (by decide))
  have hquote : '"'.toUInt8 ≠ '\''.toUInt8 := by decide
  rw [marksFrom, dif_pos hi]
  simp [hbyte, hquote]

/-- Behind `$` the loop jumps over a character. -/
theorem marksFrom_dollar (h : text.toList = l ++ '$' :: c :: cs) :
    marksFrom text .code (String.utf8Len l) =
      .code :: (List.replicate c.utf8Size .string
        ++ marksFrom text .code (String.utf8Len l + 1 + c.utf8Size)) := by
  obtain ⟨hi, hbyte⟩ := getElem?_eq_some_iff.1 (byte_of_ascii h (by decide))
  have hquote : '$'.toUInt8 ≠ '\''.toUInt8 := by decide
  have hdouble : '$'.toUInt8 ≠ '"'.toUInt8 := by decide
  have hcut : text.toList = (l ++ ['$']) ++ c :: cs := h.trans (List.append_cons ..)
  have hsize : String.utf8Len l + 1 < text.utf8ByteSize := by
    have hpos := c.utf8Size_pos
    rw [← String.utf8Len_toList, hcut, String.utf8Len_append, utf8Len_concat_ascii (by decide),
      String.utf8Len_cons]
    omega
  have hget : String.Pos.Raw.get text ⟨String.utf8Len l + 1⟩ = c := by
    have hvalid := String.get_of_valid (l ++ ['$']) (c :: cs)
    rwa [← hcut, String.ofList_toList, utf8Len_concat_ascii (by decide)] at hvalid
  rw [marksFrom, dif_pos hi]
  simp [hbyte, hquote, hdouble, hsize, hget]

theorem marksFrom_dollar_end (h : text.toList = l ++ ['$']) :
    marksFrom text .code (String.utf8Len l) = .code :: marksFrom text .code (String.utf8Len l + 1) := by
  obtain ⟨hi, hbyte⟩ := getElem?_eq_some_iff.1 (byte_of_ascii h (by decide))
  have hquote : '$'.toUInt8 ≠ '\''.toUInt8 := by decide
  have hdouble : '$'.toUInt8 ≠ '"'.toUInt8 := by decide
  have hsize : text.utf8ByteSize = String.utf8Len l + 1 := by
    rw [← String.utf8Len_toList, h, utf8Len_concat_ascii (by decide)]
  rw [marksFrom, dif_pos hi]
  simp [hbyte, hquote, hdouble, hsize]

theorem marksFrom_doubled (h : text.toList = l ++ '\'' :: '\'' :: cs) :
    marksFrom text .string (String.utf8Len l) =
      .string :: .string :: marksFrom text .string (String.utf8Len l + 2) := by
  obtain ⟨hi, hbyte⟩ := getElem?_eq_some_iff.1 (byte_of_ascii h (by decide))
  have hnext : text.toByteArray[String.utf8Len l + 1]? = some '\''.toUInt8 := by
    rw [← utf8Len_concat_ascii (c := '\'') (by decide)]
    exact byte_of_ascii (h.trans (List.append_cons ..)) (by decide)
  rw [marksFrom, dif_pos hi]
  simp [hbyte, hnext]

/-- A quote that is not doubled ends a string. -/
theorem marksFrom_quote_end (h : text.toList = l ++ '\'' :: cs) (hcs : cs.head? ≠ some '\'') :
    marksFrom text .string (String.utf8Len l) =
      .string :: marksFrom text .code (String.utf8Len l + 1) := by
  obtain ⟨hi, hbyte⟩ := getElem?_eq_some_iff.1 (byte_of_ascii h (by decide))
  have hnext : text.toByteArray[String.utf8Len l + 1]? ≠ some '\''.toUInt8 := by
    intro hquote
    rw [← utf8Len_concat_ascii (c := '\'') (by decide)] at hquote
    cases cs with
    | nil =>
      have hnone := byte_after (h.trans (List.append_cons ..)) 0
      rw [Nat.add_zero, hquote] at hnone
      simp at hnone
    | cons d cs =>
      have hd : d ∉ ByteState.string.signs := by simpa [ByteState.signs] using hcs
      have hfirst := byte_of_character (k := 0) (h.trans (List.append_cons ..)) d.utf8Size_pos
      rw [Nat.add_zero, hquote] at hfirst
      exact ByteState.ne_of_mem_utf8EncodeChar hd (List.mem_of_getElem? hfirst.symm) '\''
        (List.mem_singleton.2 rfl) rfl
  rw [marksFrom, dif_pos hi]
  simp [hbyte, hnext]

theorem marksFrom_doubleQuote_end (h : text.toList = l ++ '"' :: cs) :
    marksFrom text .comment (String.utf8Len l) =
      .comment :: marksFrom text .code (String.utf8Len l + 1) := by
  obtain ⟨hi, hbyte⟩ := getElem?_eq_some_iff.1 (byte_of_ascii h (by decide))
  rw [marksFrom, dif_pos hi]
  simp [hbyte]

/-! ## The marks -/

theorem marksFrom_size (h : text.toList = l) : marksFrom text state (String.utf8Len l) = [] := by
  rw [marksFrom, dif_neg]
  rw [← h, String.utf8Len_toList]
  exact Nat.lt_irrefl _

theorem map_kind_classify (m : Mode) (c : Char) (cs : List Char) :
    (classify m (c :: cs)).map Cell.kind =
      List.replicate c.utf8Size (m.kind c) ++ (classify (m.next c) cs).map Cell.kind := by
  rw [classify, List.map_append, List.map_map, ← String.length_utf8EncodeChar c]
  exact congrArg (· ++ _) (List.map_const' ..)

/-- Behind any characters the loop and the reader mark the rest of the text alike. -/
theorem marksFrom_eq (state : ByteState) (h : text.toList = l ++ r) :
    marksFrom text state (String.utf8Len l) = (classify state.mode r).map Cell.kind := by
  induction hn : r.length using Nat.strongRecOn generalizing l r state with
  | ind n ih =>
    subst hn
    cases r with
    | nil => exact marksFrom_size (h.trans (List.append_nil l))
    | cons c cs =>
      have hcut : text.toList = (l ++ [c]) ++ cs := h.trans (List.append_cons ..)
      have hrest : ∀ state, marksFrom text state (String.utf8Len (l ++ [c])) =
          (classify state.mode cs).map Cell.kind := by
        intro state
        exact ih cs.length (Nat.lt_succ_self _) state hcut rfl
      by_cases hc : c ∈ state.signs
      · rw [utf8Len_concat_ascii (ByteState.isAscii_of_mem_signs hc)] at hrest
        cases state with
        | code =>
          simp only [ByteState.signs, List.mem_cons, List.not_mem_nil, or_false] at hc
          rcases hc with rfl | rfl | rfl
          · rw [marksFrom_quote h, hrest]
            rfl
          · rw [marksFrom_doubleQuote h, hrest]
            rfl
          · cases cs with
            | nil =>
              rw [marksFrom_dollar_end h, hrest]
              rfl
            | cons d ds =>
              have hjump := ih ds.length (Nat.lt_succ_of_lt (Nat.lt_succ_self _)) .code
                (hcut.trans (List.append_cons ..)) rfl
              rw [utf8Len_concat, utf8Len_concat_ascii (by decide)] at hjump
              rw [marksFrom_dollar h, hjump, map_kind_classify, map_kind_classify]
              rfl
        | string =>
          obtain rfl := List.mem_singleton.1 hc
          by_cases hdoubled : cs.head? = some '\''
          · obtain ⟨ds, rfl⟩ := List.head?_eq_some_iff.1 hdoubled
            have hjump := ih ds.length (Nat.lt_succ_of_lt (Nat.lt_succ_self _)) .string
              (hcut.trans (List.append_cons ..)) rfl
            rw [utf8Len_concat_ascii (by decide), utf8Len_concat_ascii (by decide)] at hjump
            rw [marksFrom_doubled h, hjump]
            rfl
          · rw [marksFrom_quote_end h hdoubled, hrest]
            rfl
        | comment =>
          obtain rfl := List.mem_singleton.1 hc
          rw [marksFrom_doubleQuote_end h, hrest]
          rfl
      · obtain ⟨hkind, hnext⟩ := ByteState.mode_of_not_mem_signs hc
        rw [marksFrom_character h hc, map_kind_classify, hkind, hnext, hrest]

end

/-- The loop over the bytes of a text gives the marks of its cells. -/
theorem marks_eq (text : String) : marks text = (Source.ofText text).cells.toList.map Cell.kind :=
  marksFrom_eq (l := []) .code rfl

end MethodBrowser
