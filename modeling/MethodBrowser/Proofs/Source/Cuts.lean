import MethodBrowser.Proofs.Source.Lexemes
import MethodBrowser.Proofs.StatementLayout

/-!
# Cutting a text between statements

Statements are found as spans of bytes, and texts are put together from characters. This module shows
that a text can be cut where a statement starts, where it ends and around the period after it, and that
the reader is in code at each of these places (`Source.CutAt`).

**Where comments start and end.** All bytes of a character carry one mark. So where the mark changes to
or from a comment, there is a double quote (`classify_opens`, `classify_closes`).
-/

namespace MethodBrowser

namespace Mode

theorem kind_of_next_comment {m : Mode} {c : Char} (h : m.next c = .comment) : m.kind c = .comment := by
  unfold next at h
  split at h
  case h_2 => rfl
  case h_8 => rfl
  all_goals cases h

/-- A comment starts with a double quote. -/
theorem eq_quote_of_kind {m : Mode} {c : Char} (h : m.kind c = .comment) (hm : m ≠ .comment) :
    m = .code ∧ c = '"' := by
  unfold kind at h
  split at h
  case h_2 => exact ⟨rfl, rfl⟩
  case h_5 => exact absurd rfl hm
  all_goals cases h

/-- A comment ends with a double quote. -/
theorem eq_quote_of_next {m : Mode} {c : Char} (h : m.kind c = .comment) (hnext : m.next c ≠ .comment) :
    c = '"' := by
  cases m with
  | code => exact (eq_quote_of_kind h (by simp)).2
  | string => simp [kind] at h
  | character => simp [kind] at h
  | comment => exact Classical.not_not.1 fun hc => hnext (next_comment hc)

end Mode

/-! ## The cells of a character -/

theorem classify_of_lt (m : Mode) {c : Char} (cs : List Char) {k : Nat} (h : k < c.utf8Size) :
    ∃ b, (classify m (c :: cs))[k]? = some ⟨b, m.kind c⟩ ∧ (String.utf8EncodeChar c)[k]? = some b := by
  have hlen : k < (String.utf8EncodeChar c).length := by rwa [String.length_utf8EncodeChar]
  refine ⟨(String.utf8EncodeChar c)[k], ?_, List.getElem?_eq_getElem hlen⟩
  rw [classify, List.getElem?_append_left (by rwa [List.length_map]), List.getElem?_map,
    List.getElem?_eq_getElem hlen]
  rfl

theorem classify_of_ge {m : Mode} {c : Char} {cs : List Char} {k : Nat} (h : c.utf8Size ≤ k) :
    (classify m (c :: cs))[k]? = (classify (m.next c) cs)[k - c.utf8Size]? := by
  rw [classify, List.getElem?_append_right (by rwa [List.length_map, String.length_utf8EncodeChar]),
    List.length_map, String.length_utf8EncodeChar]

/-- The first cell of a text is that of its first character. -/
theorem exists_cons_of_head {m : Mode} {cs : List Char} {cell : Cell}
    (h : (classify m cs)[0]? = some cell) :
    ∃ c cs', cs = c :: cs' ∧ cell.kind = m.kind c ∧ (String.utf8EncodeChar c)[0]? = some cell.byte := by
  cases cs with
  | nil => simp [classify] at h
  | cons c cs' =>
    obtain ⟨b, hcell, hbyte⟩ := classify_of_lt m cs' c.utf8Size_pos
    obtain rfl := Option.some.inj (h.symm.trans hcell)
    exact ⟨c, cs', rfl, rfl, hbyte⟩

/-- The first byte of a comment is a double quote. -/
theorem classify_opens {m : Mode} {cs : List Char} {k : Nat} {a b : Cell}
    (ha : (classify m cs)[k]? = some a) (hb : (classify m cs)[k + 1]? = some b)
    (hkind : a.kind ≠ .comment) (hkind' : b.kind = .comment) : b.byte = '"'.toUInt8 := by
  induction cs generalizing m k with
  | nil => simp [classify] at ha
  | cons c cs ih =>
    rcases Nat.lt_or_ge k c.utf8Size with hlt | hge
    · obtain ⟨x, hcell, -⟩ := classify_of_lt m cs hlt
      obtain rfl := Option.some.inj (ha.symm.trans hcell)
      rcases Nat.lt_or_ge (k + 1) c.utf8Size with hlt' | hge'
      · obtain ⟨y, hcell', -⟩ := classify_of_lt m cs hlt'
        obtain rfl := Option.some.inj (hb.symm.trans hcell')
        exact absurd hkind' hkind
      · rw [classify_of_ge hge', show k + 1 - c.utf8Size = 0 by omega] at hb
        obtain ⟨c', cs', -, hkind'', hbyte⟩ := exists_cons_of_head hb
        obtain ⟨-, rfl⟩ := Mode.eq_quote_of_kind (hkind''.symm.trans hkind')
          fun hnext => hkind (Mode.kind_of_next_comment hnext)
        exact (Option.some.inj hbyte).symm
    · rw [classify_of_ge hge] at ha
      rw [classify_of_ge (by omega), show k + 1 - c.utf8Size = k - c.utf8Size + 1 by omega] at hb
      exact ih ha hb

/-- The last byte of a comment is a double quote. -/
theorem classify_closes {m : Mode} {cs : List Char} {k : Nat} {a b : Cell}
    (ha : (classify m cs)[k]? = some a) (hb : (classify m cs)[k + 1]? = some b)
    (hkind : a.kind = .comment) (hkind' : b.kind ≠ .comment) : a.byte = '"'.toUInt8 := by
  induction cs generalizing m k with
  | nil => simp [classify] at ha
  | cons c cs ih =>
    rcases Nat.lt_or_ge k c.utf8Size with hlt | hge
    · obtain ⟨x, hcell, hbyte⟩ := classify_of_lt m cs hlt
      obtain rfl := Option.some.inj (ha.symm.trans hcell)
      rcases Nat.lt_or_ge (k + 1) c.utf8Size with hlt' | hge'
      · obtain ⟨y, hcell', -⟩ := classify_of_lt m cs hlt'
        obtain rfl := Option.some.inj (hb.symm.trans hcell')
        exact absurd hkind hkind'
      · rw [classify_of_ge hge', show k + 1 - c.utf8Size = 0 by omega] at hb
        obtain ⟨c', cs', -, hkind'', -⟩ := exists_cons_of_head hb
        have hquote : c = '"' := Mode.eq_quote_of_next hkind fun hnext => by
          rw [hnext] at hkind''
          exact hkind' hkind''
        subst hquote
        obtain rfl : k = 0 := by
          have : ('"' : Char).utf8Size = 1 := rfl
          omega
        exact (Option.some.inj hbyte).symm
    · rw [classify_of_ge hge] at ha
      rw [classify_of_ge (by omega), show k + 1 - c.utf8Size = k - c.utf8Size + 1 by omega] at hb
      exact ih ha hb

/-! ## White space and comments -/

/-- Only white space and comments; the last comment may be left open. -/
def IsTail (cs : List Char) : Prop := ∀ cell ∈ classify .code cs, cell.isSignificant = false

/-- Only white space and complete comments. -/
structure IsGap (cs : List Char) : Prop where
  idle : IsTail cs
  closed : Mode.code.after cs = .code

/-- A character of one byte that is white space. -/
theorem isBlank_of_not_isSignificant {b : UInt8} (h : (Cell.mk b .code).isSignificant = false) :
    Byte.isBlank b = true := by
  simpa [Cell.isSignificant] using h

theorem utf8Size_of_isBlank {c : Char} {b : UInt8} (h : (String.utf8EncodeChar c)[0]? = some b)
    (hb : Byte.isBlank b = true) : c.utf8Size = 1 ∧ Mode.code.next c = .code := by
  have hascii : IsAscii c := by
    by_contra hnot
    have hle := le_of_mem_utf8EncodeChar hnot (List.mem_of_getElem? h)
    simp only [Byte.isBlank, Bool.or_eq_true, beq_iff_eq] at hb
    rcases hb with (((rfl | rfl) | rfl) | rfl) | rfl <;> exact absurd hle (by decide)
  rw [hascii.utf8EncodeChar] at h
  obtain rfl := Option.some.inj h
  have hplain : IsPlain c := by
    refine ⟨hascii, ?_, ?_, ?_⟩
    all_goals
      rintro rfl
      exact absurd hb (by decide)
  exact ⟨hascii.utf8Size, hplain.next⟩

/-- White space and comments can be cut off from what follows them, unless it is part of a comment. -/
theorem exists_gap {m : Mode} {cs : List Char} {d : Nat} (hm : m = .code ∨ m = .comment)
    (hd : d ≤ String.utf8Len cs)
    (hidle : ∀ k < d, ∀ cell, (classify m cs)[k]? = some cell → cell.isSignificant = false)
    (hend : ∀ cell, (classify m cs)[d]? = some cell → cell.kind ≠ .comment) :
    ∃ g r, cs = g ++ r ∧ String.utf8Len g = d ∧ (r ≠ [] → m.after g = .code) := by
  induction cs generalizing m d with
  | nil => exact ⟨[], [], rfl, by simpa using hd.antisymm (Nat.zero_le _) |>.symm, by simp⟩
  | cons c cs ih =>
    obtain ⟨b, hcell, hbyte⟩ := classify_of_lt m cs c.utf8Size_pos
    rcases Nat.eq_zero_or_pos d with rfl | hpos
    · refine ⟨[], c :: cs, rfl, rfl, fun _ => hm.resolve_right ?_⟩
      rintro rfl
      exact hend _ hcell rfl
    · have hfirst := hidle 0 hpos _ hcell
      have hnext : (m.next c = .code ∨ m.next c = .comment) ∧ c.utf8Size ≤ d := by
        rcases hm with rfl | rfl
        · cases hkind : Mode.code.kind c with
          | code =>
            rw [hkind] at hfirst
            obtain ⟨hsize, hcode⟩ := utf8Size_of_isBlank hbyte (isBlank_of_not_isSignificant hfirst)
            exact ⟨.inl hcode, by omega⟩
          | string =>
            rw [hkind] at hfirst
            exact absurd hfirst (by simp [Cell.isSignificant])
          | comment =>
            obtain ⟨-, rfl⟩ := Mode.eq_quote_of_kind hkind (by simp)
            exact ⟨.inr rfl, hpos⟩
        · have hkind : Mode.comment.kind c = .comment := rfl
          refine ⟨?_, Nat.le_of_not_lt fun hlt => ?_⟩
          · by_cases hquote : c = '"'
            · exact .inl (by rw [hquote]; rfl)
            · exact .inr (next_comment hquote)
          · obtain ⟨b', hcell', -⟩ := classify_of_lt .comment cs hlt
            exact hend _ hcell' hkind
      obtain ⟨hm', hle⟩ := hnext
      obtain ⟨g, r, rfl, hlen, hmode⟩ := ih hm' (d := d - c.utf8Size)
        (by rw [String.utf8Len_cons] at hd; omega)
        (fun k hk cell hcell => hidle (k + c.utf8Size) (by omega) cell (by
          rw [classify_of_ge (by omega), Nat.add_sub_cancel]
          exact hcell))
        (fun cell hcell => hend cell (by rw [classify_of_ge hle]; exact hcell))
      exact ⟨c :: g, r, rfl, by rw [String.utf8Len_cons]; omega, hmode⟩

/-! ## Cuts of a source -/

namespace Source

variable {src : Source} {i j k : Nat} {l r : List Char}

/-- The text is `l` and then `r`, which is read as code. -/
structure Cut (src : Source) (l r : List Char) : Prop where
  text : src.text.toList = l ++ r
  mode : r ≠ [] → Mode.code.after l = .code

/-- The text can be cut at an offset. -/
def CutAt (src : Source) (i : Nat) : Prop := ∃ l r, src.Cut l r ∧ String.utf8Len l = i

theorem Cut.cutAt (h : src.Cut l r) : src.CutAt (String.utf8Len l) := ⟨l, r, h, rfl⟩

/-- The cells after a cut. -/
theorem Cut.cell (h : src.Cut l r) (k : Nat) :
    src.cells[String.utf8Len l + k]? = (classify .code r)[k]? := by
  rw [getElem?_cells, h.text, classify_append,
    List.getElem?_append_right (by rw [length_classify]; omega), length_classify,
    Nat.add_sub_cancel_left]
  cases r with
  | nil => rfl
  | cons c r => rw [h.mode (by simp)]

theorem Cut.size (h : src.Cut l r) : src.size = String.utf8Len l + String.utf8Len r := by
  rw [size_eq, h.text, String.utf8Len_append]

/-- What stands between two cuts. -/
theorem Cut.extend (h : src.Cut l r) (hj : src.CutAt j) (hle : String.utf8Len l ≤ j) :
    ∃ g r', r = g ++ r' ∧ String.utf8Len (l ++ g) = j ∧ src.Cut (l ++ g) r' := by
  obtain ⟨l', r', hcut, rfl⟩ := hj
  obtain ⟨g, rfl, rfl⟩ := append_eq_append_of_le (h.text.symm.trans hcut.text) hle
  exact ⟨g, r', rfl, rfl, hcut⟩

theorem cutAt_size (src : Source) : src.CutAt src.size :=
  ⟨src.text.toList, [], ⟨by simp, by simp⟩, src.size_eq.symm⟩

/-- A text can be cut before code of one byte. -/
theorem cutAt_of_isCode (h : src.holds (fun c => c.isCode && c.isAscii) k = true) :
    ∃ l c r, src.Cut l (c :: r) ∧ String.utf8Len l = k ∧ IsAscii c ∧
      src.cells[k]? = some ⟨c.toUInt8, .code⟩ := by
  simp only [holds, Option.any_eq_true, Bool.and_eq_true, Cell.isCode, Cell.isAscii,
    decide_eq_true_eq, beq_iff_eq] at h
  obtain ⟨cell, hcell, hkind, hbyte⟩ := h
  have hcell' := hcell
  rw [getElem?_cells] at hcell'
  obtain ⟨l, c, r, htext, hlen, hascii, heq⟩ := classify_cut hcell' hbyte
  have hkind' : (Mode.code.after l).kind c = .code := by rw [← hkind, heq]
  refine ⟨l, c, r, ⟨htext, fun _ => Mode.eq_code_of_kind hkind'⟩, hlen, hascii, ?_⟩
  rw [hcell, heq, hkind']

/-- A text can be cut before and after a plain character of code. -/
theorem cutAt_of_codeAt {x : Char} (hx : IsPlain x) (h : src.codeAt k x = true) :
    ∃ l r, src.Cut l (x :: r) ∧ String.utf8Len l = k ∧ src.Cut (l ++ [x]) r ∧
      String.utf8Len (l ++ [x]) = k + 1 := by
  have hascii : Cell.isAscii ⟨x.toUInt8, .code⟩ = true := by
    have hlt := hx.1
    rw [Cell.isAscii, decide_eq_true_eq, ← toNat_ofUInt8, hx.1.ofUInt8]
    exact hlt
  obtain ⟨l, c, r, hcut, hlen, hc, hcell⟩ := cutAt_of_isCode (holds_of_imp (fun cell hcell => by
    rw [Cell.isCodeChar, Bool.and_eq_true, beq_iff_eq] at hcell
    rw [Bool.and_eq_true]
    exact ⟨hcell.1, by rw [Cell.isAscii, hcell.2]; exact hascii⟩) h)
  obtain rfl : c = x := by
    rw [codeAt, holds, hcell, Option.any_some, Cell.isCodeChar, Bool.and_eq_true, beq_iff_eq] at h
    have hbyte : c.toUInt8 = x.toUInt8 := h.2
    rw [← hc.ofUInt8, hbyte, hx.1.ofUInt8]
  have hmode : Mode.code.after (l ++ [c]) = .code := by
    rw [Mode.after_append, hcut.mode (by simp)]
    exact hx.next
  refine ⟨l, r, hcut, hlen, ⟨by rw [hcut.text]; simp, fun _ => hmode⟩, ?_⟩
  rw [String.utf8Len_append, hlen]
  simp [hc.utf8Size]

theorem isPlain_period : IsPlain '.' := ⟨by unfold IsAscii; decide, by decide, by decide, by decide⟩

/-- White space and comments lead from one cut to another. -/
theorem CutAt.idle (h : src.CutAt i) (hij : i ≤ j) (hj : j ≤ src.size) (hidle : src.Idle i j)
    (hend : ∀ cell, src.cells[j]? = some cell → cell.kind ≠ .comment) : src.CutAt j := by
  obtain ⟨l, r, hcut, rfl⟩ := h
  have hsize := hcut.size
  obtain ⟨g, r', rfl, hlen, hmode⟩ := exists_gap (.inl rfl)
    (show j - String.utf8Len l ≤ String.utf8Len r by omega)
    (fun k hk cell hcell => by
      have hk' := hidle (String.utf8Len l + k) (by omega) (by omega)
      rwa [isSignificant, holds, hcut.cell, hcell, Option.any_some] at hk')
    (fun cell hcell => hend cell (by
      rw [← hcell, ← hcut.cell, Nat.add_sub_cancel' hij]))
  refine ⟨l ++ g, r', ⟨by rw [hcut.text, List.append_assoc], fun hne => ?_⟩, ?_⟩
  · rw [Mode.after_append, hcut.mode (by simp [hne]), hmode hne]
  · rw [String.utf8Len_append]
    omega

theorem byte_of_opens {a b : Cell} (ha : src.cells[k]? = some a) (hb : src.cells[k + 1]? = some b)
    (hkind : a.kind ≠ .comment) (hkind' : b.kind = .comment) : b.byte = '"'.toUInt8 := by
  rw [getElem?_cells] at ha hb
  exact classify_opens ha hb hkind hkind'

theorem byte_of_closes {a b : Cell} (ha : src.cells[k]? = some a) (hb : src.cells[k + 1]? = some b)
    (hkind : a.kind = .comment) (hkind' : b.kind ≠ .comment) : a.byte = '"'.toUInt8 := by
  rw [getElem?_cells] at ha hb
  exact classify_closes ha hb hkind hkind'

theorem kind_ne_comment_of_isSignificant {cell : Cell} (h : cell.isSignificant = true) :
    cell.kind ≠ .comment := fun hkind => by simp [Cell.isSignificant, hkind] at h

/-- The reader is in code where a comment starts. -/
theorem cut_of_quote {c : Char} (htext : src.text.toList = l ++ c :: r)
    (hkind : (Mode.code.after l).kind c = .comment)
    (hbefore : ∀ cell, src.cells[String.utf8Len l - 1]? = some cell → cell.kind ≠ .comment)
    (hl : l ≠ []) : src.Cut l (c :: r) := by
  refine ⟨htext, fun _ => (Mode.eq_quote_of_kind hkind fun hmode => ?_).1⟩
  -- The character before it would be part of a comment.
  rcases List.eq_nil_or_concat l with rfl | ⟨l', d, rfl⟩
  · exact hl rfl
  · rw [List.concat_eq_append, Mode.after_append] at hmode
    have hkind' : (Mode.code.after l').kind d = .comment := Mode.kind_of_next_comment hmode
    have hpos := d.utf8Size_pos
    obtain ⟨b, hcell, -⟩ := classify_of_lt (Mode.code.after l') (c :: r)
      (show d.utf8Size - 1 < d.utf8Size by omega)
    refine hbefore ⟨b, (Mode.code.after l').kind d⟩ ?_ hkind'
    have hlen : String.utf8Len (l'.concat d) = String.utf8Len l' + d.utf8Size := by
      rw [List.concat_eq_append, String.utf8Len_append]
      simp
    rw [getElem?_cells, htext, hlen, List.concat_eq_append, List.append_assoc, classify_append,
      List.getElem?_append_right (by rw [length_classify]; omega), length_classify,
      show String.utf8Len l' + d.utf8Size - 1 - String.utf8Len l' = d.utf8Size - 1 by omega]
    exact hcell

/-- A text can be cut where what is significant ends. -/
theorem cutAt_of_end (hpos : 0 < j) (hj : j ≤ src.size) (hlast : src.isSignificant (j - 1) = true)
    (hend : j < src.size → src.isSignificant j = false ∨ src.codeAt j '.' = true) : src.CutAt j := by
  rcases Nat.eq_or_lt_of_le hj with rfl | hlt
  · exact src.cutAt_size
  · rcases hend hlt with hidle | hperiod
    · have hcell : src.cells[j]? = some src.cells[j] := Array.getElem?_eq_getElem hlt
      rw [isSignificant, holds, hcell, Option.any_some] at hidle
      cases hkind : src.cells[j].kind with
      | code =>
        have hblank : Byte.isBlank src.cells[j].byte = true := by
          simpa [Cell.isSignificant, hkind] using hidle
        have hcode : src.holds (fun c => c.isCode && c.isAscii) j = true := by
          rw [holds, hcell, Option.any_some, Cell.isCode, hkind, Cell.isAscii]
          simp only [Byte.isBlank, Bool.or_eq_true, beq_iff_eq] at hblank
          rcases hblank with (((hb | hb) | hb) | hb) | hb <;> rw [hb] <;> rfl
        obtain ⟨l, c, r, hcut, rfl, -⟩ := cutAt_of_isCode hcode
        exact hcut.cutAt
      | string => simp [Cell.isSignificant, hkind] at hidle
      | comment =>
        rw [isSignificant, holds, Option.any_eq_true] at hlast
        obtain ⟨last, hprev, hlast⟩ := hlast
        have hne := kind_ne_comment_of_isSignificant hlast
        have hbyte : src.cells[j].byte = '"'.toUInt8 :=
          byte_of_opens hprev (by rw [Nat.sub_add_cancel hpos, hcell]) hne hkind
        have hcell' := hcell
        rw [getElem?_cells] at hcell'
        obtain ⟨l, c, r, htext, hlen, -, heq⟩ := classify_cut hcell' (by rw [hbyte]; decide)
        have hkind' : (Mode.code.after l).kind c = .comment := by rw [← hkind, heq]
        refine ⟨l, c :: r, cut_of_quote htext hkind' (fun cell hcell => ?_) ?_, hlen⟩
        · rw [hlen, hprev] at hcell
          obtain rfl := Option.some.inj hcell
          exact hne
        · rintro rfl
          simp at hlen
          omega
    · obtain ⟨l, r, hcut, rfl, -⟩ := cutAt_of_codeAt isPlain_period hperiod
      exact hcut.cutAt

end Source

end MethodBrowser
