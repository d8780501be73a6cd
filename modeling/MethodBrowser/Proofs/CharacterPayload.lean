import MethodBrowser.Proofs.LiteralIndependence
import MethodBrowser.Proofs.Source.KeptPreamble

/-!
# The character of a character literal

The character after a dollar sign is marked as part of a literal, and no scan takes it for code. Still
the code right behind it may be read differently: where a word or a period stands there, the byte in
front of it is looked at as it is. This module shows that nothing else depends on the character
(`Source.payload_exchanged`).

**Which characters are told apart.** Behind an identifier character no word starts; behind `#` and `:`
no keyword; and an `s` completes the receivers `self` and `super`. A period between digits is a decimal
point (`Source.Interchangeable`). A literal with anything else behind it, such as white space, may hold
any character.
-/

namespace MethodBrowser

theorem IsAscii.toUInt8_beq {c x : Char} (hc : IsAscii c) (hx : IsAscii x) :
    (c.toUInt8 == x.toUInt8) = (c == x) := by
  rw [Bool.eq_iff_iff, beq_iff_eq, beq_iff_eq]
  exact ⟨hc.toUInt8_inj hx, congrArg _⟩

namespace Source

variable {src s t : Source} {l r : List Char} {c d : Char} {i : Nat}

/-! ## A character is exchanged -/

/-- The code at `k` is the same to its readers whichever of the two characters stands in front of it. -/
structure Interchangeable (src : Source) (k : Nat) (c d : Char) : Prop where
  ident : src.holds Cell.isWordChar k = true → isIdentRest d = isIdentRest c
  symbol : src.holds Cell.isLetter k = true → (d == '#' || d == ':') = (c == '#' || c == ':')
  receiver : src.CompletesReceiver k → (d == 's') = (c == 's')
  point : src.codeAt k '.' = true → src.byteIs Byte.isDigit (k + 1) = true → d.isDigit = c.isDigit

theorem cells_payload (h : src.text.toList = l ++ '$' :: c :: r) (hmode : Mode.code.after l = .code)
    (hc : IsAscii c) : src.cells.toList =
      classify .code l ++ ⟨'$'.toUInt8, .code⟩ :: ⟨c.toUInt8, .string⟩ :: classify .code r := by
  rw [src.cells_eq, h, classify_append, hmode, classify, classify, hc.utf8EncodeChar]
  rfl

/-- The literal has the character `c`. -/
theorem cell_payload (h : src.text.toList = l ++ '$' :: c :: r) (hmode : Mode.code.after l = .code)
    (hc : IsAscii c) : src.cells[String.utf8Len l + 1]? = some ⟨c.toUInt8, .string⟩ := by
  rw [← Array.getElem?_toList, cells_payload h hmode hc, List.getElem?_append_right (by rw [length_classify]; omega),
    length_classify, Nat.add_sub_cancel_left]
  rfl

/-- All else is the same in both. -/
theorem cell_beside_payload (hs : s.text.toList = l ++ '$' :: c :: r)
    (ht : t.text.toList = l ++ '$' :: d :: r) (hmode : Mode.code.after l = .code) (hc : IsAscii c)
    (hd : IsAscii d) (hi : i ≠ String.utf8Len l + 1) : t.cells[i]? = s.cells[i]? := by
  have hset : t.cells.toList = s.cells.toList.set (String.utf8Len l + 1) ⟨d.toUInt8, .string⟩ := by
    rw [cells_payload hs hmode hc, cells_payload ht hmode hd,
      List.set_append_right _ _ (by rw [length_classify]; omega), length_classify,
      Nat.add_sub_cancel_left]
    rfl
  rw [← Array.getElem?_toList, hset, List.getElem?_set_ne hi.symm, Array.getElem?_toList]

/-- A question about a byte is one about the character that it is. -/
theorem byteIs_payload {q : UInt8 → Bool} (h : src.text.toList = l ++ '$' :: c :: r)
    (hmode : Mode.code.after l = .code) (hc : IsAscii c) :
    src.byteIs q (String.utf8Len l + 1) = q c.toUInt8 := by
  rw [byteIs, holds, cell_payload h hmode hc, Option.any_some]

theorem readAlike_of_payload (hs : s.text.toList = l ++ '$' :: c :: r)
    (ht : t.text.toList = l ++ '$' :: d :: r) (hc : IsAscii c) (hd : IsAscii d)
    (hbody : s.bodyStart ≤ String.utf8Len l) (hdollar : s.codeAt (String.utf8Len l) '$' = true)
    (hcd : s.Interchangeable (String.utf8Len l + 2) c d) : ReadAlike s t := by
  have hmode := Mode.eq_code_of_kind (kind_eq_of_isCode hs (isCode_of_codeAt hdollar))
  have hbeside : ∀ {i}, i ≠ String.utf8Len l + 1 → t.cells[i]? = s.cells[i]? :=
    cell_beside_payload hs ht hmode hc hd
  -- What stands in front of `i` is the same, unless it is the character.
  have hbefore : ∀ {q : UInt8 → Bool} {i : Nat},
      (i = String.utf8Len l + 2 → q d.toUInt8 = q c.toUInt8) →
      t.byteIs q (i - 1) = s.byteIs q (i - 1) := by
    intro q i hq
    by_cases hi : i - 1 = String.utf8Len l + 1
    · rw [hi, byteIs_payload hs hmode hc, byteIs_payload ht hmode hd, hq (by omega)]
    · exact holds_congr (hbeside hi)
  have hident : ∀ {x : Char}, IsAscii x → Byte.isIdent x.toUInt8 = isIdentRest x := fun hx => by
    rw [Byte.isIdent, hx.ofUInt8]
  have hdigit : ∀ {x : Char}, IsAscii x → Byte.isDigit x.toUInt8 = x.isDigit := fun hx => by
    rw [Byte.isDigit, hx.ofUInt8]
  refine ⟨(bodyStart_eq hs ht hbody (by simp)).2, fun i => ?_, fun i hi => hbeside ?_,
    fun i hi => hbefore ?_, fun i hi => hbefore ?_, fun i _ hi => hbefore ?_,
    fun i hi hi' => hbefore ?_⟩
  · by_cases hi : i = String.utf8Len l + 1
    · rw [hi, kind?, kind?, cell_payload hs hmode hc, cell_payload ht hmode hd]
      rfl
    · rw [kind?, kind?, hbeside hi]
  · rintro rfl
    rw [isCode, holds, cell_payload hs hmode hc] at hi
    simp [Cell.isCode] at hi
  · rintro rfl
    rw [hident hc, hident hd, hcd.ident hi]
  · rintro rfl
    rw [hc.toUInt8_beq (by decide), hc.toUInt8_beq (by decide), hd.toUInt8_beq (by decide),
      hd.toUInt8_beq (by decide), hcd.symbol hi]
  · rintro rfl
    rw [hc.toUInt8_beq (by decide), hd.toUInt8_beq (by decide), hcd.receiver hi]
  · rintro rfl
    rw [hdigit hc, hdigit hd, hcd.point hi hi']

/-! ## The theorem -/

/-- Another character in a character literal of the body changes neither statements nor sends, unless a
word or a decimal point right behind it tells the two apart. -/
theorem payload_exchanged (text text' : String) (l r : List Char) (c d : Char)
    (htext : text.toList = l ++ '$' :: c :: r) (htext' : text'.toList = l ++ '$' :: d :: r)
    (hc : IsAscii c) (hd : IsAscii d) (hbody : (ofText text).bodyStart ≤ String.utf8Len l)
    (hdollar : (ofText text).codeAt (String.utf8Len l) '$' = true)
    (hcd : (ofText text).Interchangeable (String.utf8Len l + 2) c d) :
    (ofText text').statements = (ofText text).statements ∧
      (ofText text').sends = (ofText text).sends := by
  have h := readAlike_of_payload (s := ofText text) (t := ofText text') htext htext' hc hd hbody
    hdollar hcd
  exact ⟨h.statements, h.sends⟩

theorem payload_exchanged_quote :
    (ofText "m\nx := $a. ^x size").Interchangeable 9 'a' '\'' ∧
      (ofText "m\nx := $'. ^x size").statements = (ofText "m\nx := $a. ^x size").statements ∧
      (ofText "m\nx := $'. ^x size").sends = (ofText "m\nx := $a. ^x size").sends := by
  have hcd : (ofText "m\nx := $a. ^x size").Interchangeable 9 'a' '\'' :=
    ⟨by decide +kernel, by decide +kernel, by unfold CompletesReceiver; decide +kernel,
      by decide +kernel⟩
  exact ⟨hcd, payload_exchanged "m\nx := $a. ^x size" "m\nx := $'. ^x size" "m\nx := ".toList
    ". ^x size".toList 'a' '\'' rfl rfl (by decide) (by decide) (by decide +kernel)
    (by decide +kernel) hcd⟩

/-- Digits behind a period, words, keywords and receivers are read differently behind other characters. -/
theorem payload_told_apart :
    (ofText "m\nx := $1.2 abs").statements ≠ (ofText "m\nx := $a.2 abs").statements ∧
      (ofText "m\n^$afoo bar").sends ≠ (ofText "m\n^$-foo bar").sends ∧
      (ofText "m\n^$#at: 1").sends ≠ (ofText "m\n^$-at: 1").sends ∧
      (ofText "m\n^$self at: 1").sends ≠ (ofText "m\n^$-elf at: 1").sends := by
  decide +kernel

end Source

end MethodBrowser
