import MethodBrowser.Proofs.Plan.InlineSites
import MethodBrowser.Proofs.Source.PlainCode
import MethodBrowser.Proofs.Source.Sides

/-!
# One site exchanged for an expression

An expression in parentheses is put in the place of a site. This module shows that the other sites stay,
that no other text becomes a site, and that none arises in the expression (`InlineMethod.Exchange.stays`,
`InlineMethod.Exchange.goes_back`).

**No site crosses a seam.** A site consists of words and white space (`InlineMethod.Mention`). So it is in
front of the parentheses, in between or behind them.

**What is left out stays so.** The expression may hold bars and hashes, and it may open blocks and literal
arrays. But it closes them. So an array in front of it ends where it did, and the scan for arrays comes to
the end of the parentheses as it came to the end of the site. A block in front of it has the temporaries
that it had. It cannot have had any behind the site: then the selector of the site would be a parameter of
the block and stand right behind a colon.
-/

namespace MethodBrowser

namespace Source

variable {src : Source} {i j m n : Nat}

/-! ## Where words end -/

theorem not_isWordChar_of_isWordEnd (h : src.isWordEnd i = true) : src.holds Cell.isWordChar i = false := by
  by_contra hchar
  rw [Bool.not_eq_false] at hchar
  rw [isWordEnd, byteIs, holds_of_imp (fun _ => Cell.isIdent_of_isWordChar) hchar] at h
  simp at h

theorem not_isWordChar_of_isWordStart (hi : 0 < i) (h : src.isWordStart i = true) :
    src.holds Cell.isWordChar (i - 1) = false := by
  rw [isWordStart, beq_false_of_ne (by omega), Bool.false_or] at h
  exact not_isWordChar_of_isWordEnd h

/-- No word starts right behind another one. -/
theorem IsWord.end_ne_start (h : src.IsWord i n) (h' : src.IsWord j m) : i + n ≠ j := by
  rintro rfl
  have hchar : src.holds Cell.isWordChar (i + n) = true := h'.chars 0 h'.pos
  rw [not_isWordChar_of_isWordEnd h.right] at hchar
  simp at hchar

end Source

namespace InlineMethod

variable {src s t : Source} {selector : String} {a a' n g m i k floor : Nat} {sp : Span}

/-! ## A receiver and a selector -/

/-- The word `self` stands at `a`, and after white space the selector. -/
structure Addresses (src : Source) (selector : String) (a n g m : Nat) : Prop where
  receiver : src.IsWord a n
  isSelf : src.slice ⟨a, a + n⟩ = "self"
  pos : 0 < g
  gap : ∀ k < g, src.holds Cell.isGap (a + n + k) = true
  word : src.IsWord (a + n + g) m
  spelled : src.slice ⟨a + n + g, a + n + g + m⟩ = selector

namespace Addresses

variable (h : Addresses src selector a n g m)
include h

theorem isFiller (hk : a ≤ k) (hk' : k < a + n + g + m) : src.isFiller k = true := by
  rw [Source.isFiller, Bool.or_eq_true]
  rcases Nat.lt_or_ge k (a + n) with hlt | hge
  · exact .inl (h.receiver.isWordChar hk hlt)
  · rcases Nat.lt_or_ge k (a + n + g) with hlt | hge'
    · obtain ⟨d, rfl⟩ := Nat.exists_eq_add_of_le hge
      exact .inr (h.gap d (by omega))
    · exact .inl (h.word.isWordChar hge' hk')

/-- The same bytes in another text say the same, if no word goes on into them or out of them. -/
theorem move (hcell : ∀ k < n + g + m, t.cells[a' + k]? = src.cells[a + k]?)
    (hstart : t.isWordStart a' = true) (hend : t.isWordEnd (a' + n + g + m) = true) :
    Addresses t selector a' n g m := by
  have hholds : ∀ p : Cell → Bool, ∀ k < n + g + m, t.holds p (a' + k) = src.holds p (a + k) :=
    fun p k hk => Source.holds_congr (hcell k hk)
  have hpos := h.pos
  have hpos' := h.word.pos
  have hascii : ∀ {i m}, src.IsWord i m → ∀ k < m, src.holds Cell.isAscii (i + k) = true :=
    fun hword k hk => Source.holds_of_imp
      (fun c hc => Cell.isAscii_of_isIdent (Cell.isIdent_of_isWordChar hc)) (hword.chars k hk)
  refine ⟨⟨h.receiver.pos, ?_, fun k hk => ?_, hstart, ?_⟩, ?_, hpos, fun k hk => ?_,
    ⟨hpos', ?_, fun k hk => ?_, ?_, hend⟩, ?_⟩
  · exact (hholds _ 0 (by omega)).trans h.receiver.letter
  · exact (hholds _ k (by omega)).trans (h.receiver.chars k hk)
  · rw [Source.isWordEnd, Source.byteIs, hholds _ n (by omega)]
    exact h.receiver.right
  · rw [← h.isSelf]
    exact Source.slice_congr (hascii h.receiver) fun k hk => hcell k (by omega)
  · rw [Nat.add_assoc, hholds _ _ (by omega), ← Nat.add_assoc]
    exact h.gap k hk
  · rw [Nat.add_assoc, hholds _ _ (by omega), ← Nat.add_assoc]
    exact h.word.letter
  · rw [Nat.add_assoc, Nat.add_assoc, hholds _ _ (by omega), ← Nat.add_assoc, ← Nat.add_assoc]
    exact h.word.chars k hk
  · have hstart' := h.word.left
    rw [Source.isWordStart, beq_false_of_ne (by omega), Bool.false_or] at hstart' ⊢
    rw [Source.byteIs, show a + n + g - 1 = a + (n + g - 1) by omega] at hstart'
    rw [Source.byteIs, show a' + n + g - 1 = a' + (n + g - 1) by omega, hholds _ _ (by omega)]
    exact hstart'
  · rw [← h.spelled]
    refine Source.slice_congr (hascii h.word) fun k hk => ?_
    rw [Nat.add_assoc, Nat.add_assoc, hcell _ (by omega), ← Nat.add_assoc, ← Nat.add_assoc]

end Addresses

/-- The selector is mentioned behind `self`. -/
def Mention (src : Source) (selector : String) (sp : Span) : Prop :=
  ∃ n g m, sp.stop = sp.start + n + g + m ∧ Addresses src selector sp.start n g m

namespace Mention

variable (h : Mention src selector sp)
include h

theorem lt : sp.start < sp.stop := by
  obtain ⟨n, g, m, hstop, haddresses⟩ := h
  have := haddresses.pos
  omega

theorem isFiller (hk : sp.start ≤ k) (hk' : k < sp.stop) : src.isFiller k = true := by
  obtain ⟨n, g, m, hstop, haddresses⟩ := h
  exact haddresses.isFiller hk (hstop ▸ hk')

theorem first : src.holds Cell.isWordChar sp.start = true := by
  obtain ⟨n, g, m, hstop, haddresses⟩ := h
  exact haddresses.receiver.chars 0 haddresses.receiver.pos

theorem last : src.holds Cell.isWordChar (sp.stop - 1) = true := by
  obtain ⟨n, g, m, hstop, haddresses⟩ := h
  rw [hstop]
  exact haddresses.word.last

theorem isWordStart : src.isWordStart sp.start = true := by
  obtain ⟨n, g, m, hstop, haddresses⟩ := h
  exact haddresses.receiver.left

theorem isWordEnd : src.isWordEnd sp.stop = true := by
  obtain ⟨n, g, m, hstop, haddresses⟩ := h
  rw [hstop]
  exact haddresses.word.right

/-- The selector starts behind white space. -/
theorem exists_word : ∃ b, sp.start < b ∧ b < sp.stop ∧ src.holds Cell.isWordChar b = true ∧
    src.isWordStart b = true ∧ src.holds Cell.isGap (b - 1) = true := by
  obtain ⟨n, g, m, hstop, haddresses⟩ := h
  have hpos := haddresses.pos
  have hpos' := haddresses.word.pos
  refine ⟨sp.start + n + g, by omega, by omega, haddresses.word.chars 0 hpos', haddresses.word.left, ?_⟩
  rw [show sp.start + n + g - 1 = sp.start + n + (g - 1) by omega]
  exact haddresses.gap _ (by omega)

theorem stop_ne_start {sp' : Span} (h' : Mention src selector sp') : sp.stop ≠ sp'.start := by
  obtain ⟨n, g, m, hstop, haddresses⟩ := h
  obtain ⟨_, _, _, -, haddresses'⟩ := h'
  rw [hstop]
  exact haddresses.word.end_ne_start haddresses'.receiver

theorem move {sp' : Span} (hsize : sp'.stop + sp.start = sp'.start + sp.stop)
    (hcell : ∀ k < sp.stop - sp.start, t.cells[sp'.start + k]? = src.cells[sp.start + k]?)
    (hstart : t.isWordStart sp'.start = true) (hend : t.isWordEnd sp'.stop = true) :
    Mention t selector sp' := by
  obtain ⟨n, g, m, hstop, haddresses⟩ := h
  have hstop' : sp'.stop = sp'.start + n + g + m := by omega
  exact ⟨n, g, m, hstop', haddresses.move (fun k hk => hcell k (by omega)) hstart (hstop' ▸ hend)⟩

theorem below (hsame : Source.SameBelow src t i) (hlt : sp.stop < i) : Mention t selector sp := by
  have hlt' := h.lt
  refine h.move (Nat.add_comm ..) (fun k hk => hsame.cell _ (by omega)) ?_ ?_
  · have hstart := h.isWordStart
    rwa [Source.isWordStart, Source.byteIs, hsame.holds (by omega)]
  · have hend := h.isWordEnd
    rwa [Source.isWordEnd, Source.byteIs, hsame.holds hlt]

end Mention

/-! ## Sites -/

/-- No literal array and no temporaries of a block from an offset on overlap the span. -/
structure Admitted (src : Source) (floor : Nat) (sp : Span) : Prop where
  le : floor ≤ sp.start
  le_size : sp.stop ≤ src.size
  arrays : ∀ {array}, array.overlaps sp = true → array ∉ src.literalArraysFrom floor src.size
  blocks : ∀ {k block}, block.overlaps sp = true → floor ≤ k →
    src.blockTemporariesAt? k src.size ≠ some block

theorem admits_iff : (src.regionFrom floor).admits sp = true ↔ Admitted src floor sp := by
  rw [SendRegion.admits, Bool.and_eq_true, Bool.not_eq_true', List.any_eq_false, Source.regionFrom,
    Span.contains_iff]
  constructor
  · rintro ⟨⟨hle, hsize⟩, hclear⟩
    refine ⟨hle, hsize, fun hover harray => hclear _ (List.mem_append_left _ harray) hover,
      fun {k block} hover hk hblock => ?_⟩
    have hlt := Source.lt_size_of_holds (Source.not_period_of_blockTemporariesAt? hblock).1
    exact hclear block (List.mem_append_right _
      (List.mem_filterMap.2 ⟨k, Span.mem_offsets.2 ⟨hk, hlt⟩, hblock⟩)) hover
  · rintro ⟨hle, hsize, harrays, hblocks⟩
    refine ⟨⟨hle, hsize⟩, fun x hx hover => ?_⟩
    rcases List.mem_append.1 hx with hx | hx
    · exact harrays hover hx
    · obtain ⟨k, hk, hblock⟩ := List.mem_filterMap.1 hx
      exact hblocks hover (Span.mem_offsets.1 hk).1 hblock

/-- A send of the selector to `self` that inlining replaces, in a text whose statements start at `floor`. -/
structure Site (src : Source) (selector : String) (floor : Nat) (sp : Span) : Prop where
  mention : Mention src selector sp
  colon : src.codeAt sp.stop ':' = false
  admitted : Admitted src floor sp

/-! ## An exchange -/

/-- An expression in parentheses. -/
def parenthesized (x : List Char) : List Char := '(' :: (x ++ [')'])

theorem after_parenthesized {x : List Char} (h : Mode.code.after x = .code) :
    Mode.code.after (parenthesized x) = .code := by
  rw [parenthesized, Mode.after, Mode.after_append]
  change Mode.after (Mode.code.after x) [')'] = .code
  rw [h]
  rfl

/-- A site of `s` is the text `w`, and `t` has the expression `x` in its place. -/
structure Exchange (s t : Source) (selector : String) (floor : Nat) (l w x r : List Char) : Prop where
  old : s.Cut l (w ++ r)
  oldRest : s.Cut (l ++ w) r
  new : t.Cut l (parenthesized x ++ r)
  site : Site s selector floor ⟨String.utf8Len l, String.utf8Len (l ++ w)⟩
  balanced : IsBalanced x
  silent : ∀ sp, ¬Mention (.ofChars x) selector sp

namespace Exchange

variable {l w x r : List Char} (E : Exchange s t selector floor l w x r)
include E

/-! ### The two texts -/

theorem inner : t.Cut (l ++ ['(']) (x ++ (')' :: r)) :=
  Source.Cut.after (g := ['(']) (by simpa [parenthesized] using E.new) fun _ => rfl

theorem newRest : t.Cut (l ++ parenthesized x) r :=
  E.new.after fun _ => after_parenthesized E.balanced.mode

theorem sameBelow : Source.SameBelow s t (String.utf8Len l) := by
  have hold := E.old.size
  have hnew := E.new.size
  refine ⟨fun k hk => ?_, by omega, by omega⟩
  have hlen : k < (classify .code l).length := by rwa [length_classify]
  rw [Source.getElem?_cells, Source.getElem?_cells, E.old.text, E.new.text, classify_append,
    List.getElem?_append_left hlen, classify_append, List.getElem?_append_left hlen]

theorem getElem?_rest (k : Nat) : t.cells[String.utf8Len (l ++ parenthesized x) + k]? =
    s.cells[String.utf8Len (l ++ w) + k]? := by
  rw [E.newRest.getElem?_rest, E.oldRest.getElem?_rest]

omit E in
theorem utf8Len_new :
    String.utf8Len (l ++ parenthesized x) = String.utf8Len l + 1 + String.utf8Len x + 1 := by
  simp only [parenthesized, String.utf8Len_append, String.utf8Len_cons, String.utf8Len_nil]
  have h : ('(' : Char).utf8Size = 1 ∧ (')' : Char).utf8Size = 1 := ⟨rfl, rfl⟩
  omega

theorem opens : t.codeAt (String.utf8Len l) '(' = true :=
  (Source.Cut.reads (w := ['(']) (by simpa [parenthesized] using E.new) (forall_of_all (by decide))).head

theorem closes : t.codeAt (String.utf8Len l + 1 + String.utf8Len x) ')' = true := by
  have hcut : t.Cut (l ++ ['('] ++ x) ([')'] ++ r) := E.inner.after fun _ => E.balanced.mode
  have hcode := (hcut.reads (forall_of_all (by decide))).head
  rw [String.utf8Len_append, String.utf8Len_append] at hcode
  exact hcode

theorem closed : t.nestFrom .empty (String.utf8Len l) (String.utf8Len (l ++ parenthesized x)) = .empty := by
  have hadd := Source.nestFrom_add E.inner E.balanced.opened ⟨1, 0, 0⟩ (Nat.le_refl _)
  rw [E.balanced.nest, Nesting.add_empty, String.utf8Len_append] at hadd
  have hopen : t.nest .empty (String.utf8Len l) = ⟨1, 0, 0⟩ := by
    rw [Source.nest, Source.codeByte?_of_codeAt E.opens]
    rfl
  have hclose : t.nest ⟨1, 0, 0⟩ (String.utf8Len l + 1 + String.utf8Len x) = .empty := by
    rw [Source.nest, Source.codeByte?_of_codeAt E.closes]
    rfl
  rw [utf8Len_new, Source.nestFrom_succ (by omega), Source.nestFrom_cons (by omega), hopen]
  exact (congrArg (t.nest · _) hadd).trans hclose

theorem lt : String.utf8Len l < String.utf8Len (l ++ w) := E.site.mention.lt

/-! ### No mention crosses a seam -/

/-- A mention is in front of the parentheses, between them or behind them. -/
theorem cases_of_mention (h : Mention t selector sp) : sp.stop < String.utf8Len l ∨
    (String.utf8Len l < sp.start ∧ sp.stop ≤ String.utf8Len l + 1 + String.utf8Len x) ∨
      String.utf8Len (l ++ parenthesized x) < sp.start := by
  have hlen := utf8Len_new (l := l) (x := x)
  have hlt := h.lt
  have hout : ∀ k, t.isFiller k = false → k < sp.start ∨ sp.stop ≤ k := fun k hk => by
    by_contra hin
    rw [h.isFiller (by omega) (by omega)] at hk
    simp at hk
  have hopen := hout _ (Source.isFiller_of_codeAt (by decide) (by decide) E.opens)
  have hclose := hout _ (Source.isFiller_of_codeAt (by decide) (by decide) E.closes)
  -- The site was bounded by no word, so a word of the new text does not end or start there.
  have hleft : sp.stop ≠ String.utf8Len l := fun heq => by
    have hlast := h.last
    have hstart : s.isWordStart (String.utf8Len l) = true := E.site.mention.isWordStart
    rw [E.sameBelow.holds (by omega), heq, Source.not_isWordChar_of_isWordStart (by omega) hstart] at hlast
    simp at hlast
  have hright : sp.start ≠ String.utf8Len (l ++ parenthesized x) := fun heq => by
    have hfirst := h.first
    have hend : s.isWordEnd (String.utf8Len (l ++ w)) = true := E.site.mention.isWordEnd
    have hcell := E.getElem?_rest 0
    rw [Nat.add_zero, Nat.add_zero] at hcell
    rw [heq, Source.holds, hcell, ← Source.holds, Source.not_isWordChar_of_isWordEnd hend] at hfirst
    simp at hfirst
  omega

/-- A mention between the parentheses is one of the expression. -/
theorem not_mention_inside (hstart : String.utf8Len l < sp.start)
    (hstop : sp.stop ≤ String.utf8Len l + 1 + String.utf8Len x) : ¬Mention t selector sp := by
  intro h
  have hlt := h.lt
  have hlen : String.utf8Len (l ++ ['(']) = String.utf8Len l + 1 := by
    rw [String.utf8Len_append]
    rfl
  have hcell : ∀ k < String.utf8Len x,
      (Source.ofChars x).cells[k]? = t.cells[String.utf8Len l + 1 + k]? := fun k hk => by
    rw [← hlen, E.inner.window hk]
  obtain ⟨d, hd⟩ := Nat.exists_eq_add_of_le (Nat.succ_le_of_lt hstart)
  obtain ⟨e, he⟩ := Nat.exists_eq_add_of_le (Nat.le_of_lt hlt)
  rw [Nat.succ_eq_add_one] at hd
  refine E.silent ⟨d, d + e⟩ (h.move (by simp only; omega) (fun k hk => ?_) ?_ ?_)
  · rw [hcell _ (by simp only; omega), hd]
    simp only [Nat.add_assoc]
  · rcases Nat.eq_zero_or_pos d with rfl | hpos
    · rfl
    · have hbound := h.isWordStart
      rw [Source.isWordStart, beq_false_of_ne (by omega), Bool.false_or, Source.byteIs, hd,
        Nat.add_sub_assoc hpos, Source.holds, ← hcell _ (by omega)] at hbound
      rw [Source.isWordStart]
      exact Bool.or_eq_true_iff.2 (.inr hbound)
  · have hbound := h.isWordEnd
    rcases Nat.eq_or_lt_of_le (show d + e ≤ String.utf8Len x by omega) with heq | hlt'
    · have hsize := Source.size_ofChars x
      rw [Source.isWordEnd, Source.byteIs, Source.holds_of_size_le (by simp only; omega)]
      rfl
    · rw [he, hd, Nat.add_assoc, Source.isWordEnd, Source.byteIs, Source.holds, ← hcell _ hlt'] at hbound
      exact hbound

/-! ### What is left out in front of the parentheses -/

theorem lt_size : String.utf8Len l < s.size := Source.lt_size_of_holds E.site.mention.first

/-- A literal array that starts in front of the site ends there, too. -/
theorem stop_le_of_literalArray {array : Span} (h : array ∈ s.literalArraysFrom floor s.size)
    (hlt : array.start < String.utf8Len (l ++ w)) : array.stop ≤ String.utf8Len l := by
  by_contra hgt
  exact E.site.admitted.arrays (Span.overlaps_iff.2 ⟨hlt, Nat.lt_of_not_le hgt⟩) h

/-- Temporaries of a block that start in front of the site end there, too. -/
theorem stop_le_of_block {block : Span} (hk : floor ≤ k) (h : s.blockTemporariesAt? k s.size = some block)
    (hlt : block.start < String.utf8Len (l ++ w)) : block.stop ≤ String.utf8Len l := by
  by_contra hgt
  exact E.site.admitted.blocks (Span.overlaps_iff.2 ⟨hlt, Nat.lt_of_not_le hgt⟩) hk h

theorem mem_literalArrays_left {array : Span} (hlt : array.start + 1 < String.utf8Len l) :
    array ∈ t.literalArraysFrom floor t.size ↔ array ∈ s.literalArraysFrom floor s.size :=
  E.sameBelow.mem_literalArraysFrom E.lt_size
    (fun _ ha hlt => E.stop_le_of_literalArray ha (Nat.lt_trans hlt E.lt)) hlt

theorem blockTemporariesAt?_left {block : Span} (hk : floor ≤ k) (hlt : block.start < String.utf8Len l) :
    t.blockTemporariesAt? k t.size = some block ↔ s.blockTemporariesAt? k s.size = some block := by
  constructor
  · intro h
    refine E.sameBelow.symm.blockTemporariesAt? h ?_
    -- A parenthesis stands where the site was.
    by_contra hstop
    have hopen := Source.not_codeAt_of_blockTemporariesAt? (x := '(') (by decide) (by decide) (by decide) h
      (Nat.le_of_lt hlt) (Nat.lt_of_not_le hstop)
    rw [E.opens] at hopen
    simp at hopen
  · intro h
    exact E.sameBelow.blockTemporariesAt? h (E.stop_le_of_block hk h (Nat.lt_trans hlt E.lt))

theorem admitted_left (hlt : sp.stop < String.utf8Len l) : Admitted t floor sp ↔ Admitted s floor sp := by
  have hleft := E.sameBelow.le_left
  have hright := E.sameBelow.le_right
  have hbefore : ∀ {a : Span}, a.overlaps sp = true → a.start + 1 < String.utf8Len l := fun ha => by
    have := (Span.overlaps_iff.1 ha).1
    omega
  have harrays : ∀ {a : Span}, a.overlaps sp = true →
      (a ∈ t.literalArraysFrom floor t.size ↔ a ∈ s.literalArraysFrom floor s.size) :=
    fun hover => E.mem_literalArrays_left (hbefore hover)
  have hblocks : ∀ {k} {b : Span}, b.overlaps sp = true → floor ≤ k →
      (t.blockTemporariesAt? k t.size = some b ↔ s.blockTemporariesAt? k s.size = some b) :=
    fun hover hk => E.blockTemporariesAt?_left hk (Nat.lt_of_succ_lt (hbefore hover))
  constructor
  · intro h
    exact ⟨h.le, by omega, fun hover ha => h.arrays hover ((harrays hover).2 ha),
      fun hover hk hb => h.blocks hover hk ((hblocks hover hk).2 hb)⟩
  · intro h
    exact ⟨h.le, by omega, fun hover ha => h.arrays hover ((harrays hover).1 ha),
      fun hover hk hb => h.blocks hover hk ((hblocks hover hk).1 hb)⟩

/-! ### What is left out behind them -/

/-- No literal array goes on past the closing parenthesis. -/
theorem stop_le_of_newArray {array : Span} (h : array ∈ t.literalArraysFrom floor t.size)
    (hlt : array.start < String.utf8Len (l ++ parenthesized x)) :
    array.stop ≤ String.utf8Len (l ++ parenthesized x) := by
  have hlen := utf8Len_new (l := l) (x := x)
  have hsize := E.newRest.size
  rcases Nat.lt_or_ge (array.start + 1) (String.utf8Len l) with hbefore | hge
  · have hlt' := E.lt
    have hle := E.stop_le_of_literalArray ((E.mem_literalArrays_left hbefore).1 h) (by omega)
    omega
  · obtain ⟨hopens, -, hstop⟩ := Source.mem_literalArraysFrom h
    have hhash : t.codeAt array.start '#' = true := (Bool.and_eq_true_iff.1 hopens).1
    have hne : array.start ≠ String.utf8Len l + 1 + String.utf8Len x := fun heq => by
      rw [heq, Source.codeAt_ne (by decide) E.closes] at hhash
      simp at hhash
    rw [hstop]
    rcases Nat.lt_or_ge array.start (String.utf8Len l) with hhere | hinside
    · -- The array is opened by the parenthesis.
      have hnest : t.nest .empty array.start = .empty := by
        rw [Source.nest, Source.codeByte?_of_codeAt hhash]
        rfl
      refine Source.groupEnd_le_of_opensArray hopens (Nat.le_refl _) (by omega) (by omega) ?_
      rw [Source.nestFrom_cons (by omega), hnest, show array.start + 1 = String.utf8Len l by omega]
      exact E.closed
    · exact Source.groupEnd_le_of_opensArray hopens hinside (by omega) (by omega) E.closed

/-- A block has no temporaries behind the site, unless it is there, too. -/
theorem le_of_block {block : Span} (h : s.blockTemporariesAt? k s.size = some block)
    (hlt : String.utf8Len (l ++ w) ≤ block.start) : String.utf8Len (l ++ w) ≤ k := by
  obtain ⟨hopen, hbody, -⟩ := Source.blockTemporariesAt?_iff.1 h
  obtain ⟨b, hb, hbstop, hchar, hstart, hgap⟩ := E.site.mention.exists_word
  simp only at hb hbstop
  by_contra hk
  rcases Nat.lt_or_ge k (String.utf8Len l) with hleft | hin
  · have hcolon := Source.colon_of_blockBodyAt? hbody (Nat.lt_trans hleft hb) (by omega) hchar hstart
    rw [Source.not_isGap_of_codeAt (by decide) hcolon] at hgap
    simp at hgap
  · have hfiller := E.site.mention.isFiller hin (Nat.lt_of_not_le hk)
    rw [Source.isFiller_of_codeAt (by decide) (by decide) hopen] at hfiller
    simp at hfiller

theorem floor_le : floor ≤ String.utf8Len (l ++ w) ∧ floor ≤ String.utf8Len (l ++ parenthesized x) := by
  have hle : floor ≤ String.utf8Len l := E.site.admitted.le
  have hlt := E.lt
  have hlen := utf8Len_new (l := l) (x := x)
  omega

/-- The scans for literal arrays come to the rest of their texts, where they find the same. -/
theorem mem_literalArrays_right {array : Span} (h : array ∈ s.literalArraysFrom floor s.size)
    (hlt : String.utf8Len (l ++ w) < array.stop) : ∃ a : Span,
    array = a.shift (String.utf8Len (l ++ w)) ∧
      a.shift (String.utf8Len (l ++ parenthesized x)) ∈ t.literalArraysFrom floor t.size := by
  have hrest := E.oldRest.literalArraysFrom_rest 0
  have hrest' := E.newRest.literalArraysFrom_rest 0
  rw [Nat.add_zero] at hrest hrest'
  have hbefore := E.lt
  rcases Source.literalArraysFrom_split (l := s.size) E.floor_le.1 with
    ⟨a, ha, hstart, hstop⟩ | ⟨left, heq, hleft⟩
  · have := E.stop_le_of_literalArray ha hstart
    omega
  · rw [heq, hrest] at h
    rcases List.mem_append.1 h with hin | hin
    · have := hleft array hin
      omega
    · obtain ⟨a, ha, rfl⟩ := List.mem_map.1 hin
      refine ⟨a, rfl, ?_⟩
      rcases Source.literalArraysFrom_split (l := t.size) E.floor_le.2 with
        ⟨b, hb, hstart, hstop⟩ | ⟨left, heq, -⟩
      · have := E.stop_le_of_newArray hb hstart
        omega
      · rw [heq, hrest']
        exact List.mem_append_right _ (List.mem_map_of_mem ha)

theorem blockTemporariesAt?_right {block : Span} (hk : floor ≤ k)
    (h : s.blockTemporariesAt? k s.size = some block) (hlt : String.utf8Len (l ++ w) < block.stop) :
    ∃ (b : Span) (k' : Nat), block = b.shift (String.utf8Len (l ++ w)) ∧ floor ≤ k' ∧
      t.blockTemporariesAt? k' t.size = some (b.shift (String.utf8Len (l ++ parenthesized x))) := by
  have hbefore := E.lt
  have hge : String.utf8Len (l ++ w) ≤ block.start := by
    by_contra hstart
    have := E.stop_le_of_block hk h (Nat.lt_of_not_le hstart)
    omega
  obtain ⟨d, rfl⟩ := Nat.exists_eq_add_of_le (E.le_of_block h hge)
  rw [E.oldRest.blockTemporariesAt?_rest] at h
  obtain ⟨b, hb, rfl⟩ := Option.map_eq_some_iff.1 h
  refine ⟨b, String.utf8Len (l ++ parenthesized x) + d, rfl,
    Nat.le_trans E.floor_le.2 (Nat.le_add_right ..), ?_⟩
  rw [E.newRest.blockTemporariesAt?_rest, hb, Option.map_some]

theorem admitted_right (h : Admitted t floor (sp.shift (String.utf8Len (l ++ parenthesized x)))) :
    Admitted s floor (sp.shift (String.utf8Len (l ++ w))) := by
  have hsize := E.oldRest.size_rest
  have hsize' := E.newRest.size_rest
  have hle := h.le_size
  have hbehind : ∀ {a : Span}, a.overlaps (sp.shift (String.utf8Len (l ++ w))) = true →
      String.utf8Len (l ++ w) < a.stop := fun hover =>
    Nat.lt_of_le_of_lt (Nat.le_add_right ..) (Span.overlaps_iff.1 hover).2
  have hover' : ∀ {a : Span} {i j}, (a.shift i).overlaps (sp.shift i) = true →
      (a.shift j).overlaps (sp.shift j) = true := by
    simp only [Span.overlaps_shift, implies_true, imp_self]
  simp only [Span.shift] at hle
  refine ⟨Nat.le_trans E.floor_le.1 (Nat.le_add_right ..), by simp only [Span.shift]; omega,
    fun hover harray => ?_, fun hover hk hblock => ?_⟩
  · obtain ⟨a, rfl, ha⟩ := E.mem_literalArrays_right harray (hbehind hover)
    exact h.arrays (hover' hover) ha
  · obtain ⟨b, k', rfl, hk', hb⟩ := E.blockTemporariesAt?_right hk hblock (hbehind hover)
    exact h.blocks (hover' hover) hk' hb

/-! ### Sites -/

/-- A site in front of the parentheses stays. -/
theorem stays (h : Site s selector floor sp) (hlt : sp.stop < String.utf8Len l) :
    Site t selector floor sp :=
  ⟨h.mention.below E.sameBelow hlt, (E.sameBelow.codeAt hlt).trans h.colon,
    (E.admitted_left hlt).2 h.admitted⟩

/-- A site of the new text is in front of the parentheses or behind them, and was a site before. -/
theorem goes_back (h : Site t selector floor sp) :
    sp.stop < String.utf8Len l ∧ Site s selector floor sp ∨
      ∃ sp', Site s selector floor sp' ∧ String.utf8Len (l ++ w) ≤ sp'.start ∧
        String.utf8Len (l ++ parenthesized x) ≤ sp.start := by
  rcases E.cases_of_mention h.mention with hleft | ⟨hstart, hstop⟩ | hright
  · exact .inl ⟨hleft, h.mention.below E.sameBelow.symm hleft,
      (E.sameBelow.symm.codeAt hleft).trans h.colon, (E.admitted_left hleft).1 h.admitted⟩
  · exact absurd h.mention (E.not_mention_inside hstart hstop)
  · obtain ⟨q, rfl⟩ : ∃ q : Span, sp = q.shift (String.utf8Len (l ++ parenthesized x)) := by
      have hlt := h.mention.lt
      obtain ⟨start, stop⟩ := sp
      refine ⟨⟨start - String.utf8Len (l ++ parenthesized x),
        stop - String.utf8Len (l ++ parenthesized x)⟩, ?_⟩
      simp only [Span.shift, Span.mk.injEq] at hright hlt ⊢
      omega
    have hholds : ∀ (p : Cell → Bool) k, t.holds p (String.utf8Len (l ++ parenthesized x) + k) =
        s.holds p (String.utf8Len (l ++ w) + k) := fun p k => Source.holds_congr (E.getElem?_rest k)
    have hpos : 0 < q.start := by
      simp only [Span.shift] at hright
      omega
    refine .inr ⟨q.shift (String.utf8Len (l ++ w)), ⟨h.mention.move ?_ (fun k _ => ?_) ?_ ?_, ?_,
      E.admitted_right h.admitted⟩, Nat.le_add_right .., Nat.le_add_right ..⟩
    · simp only [Span.shift]
      omega
    · simp only [Span.shift, Nat.add_assoc]
      exact (E.getElem?_rest _).symm
    · have hbound := h.mention.isWordStart
      simp only [Span.shift] at hbound ⊢
      rw [Source.isWordStart, beq_false_of_ne (by omega), Bool.false_or, Source.byteIs,
        Nat.add_sub_assoc hpos] at hbound ⊢
      rwa [← hholds]
    · have hbound := h.mention.isWordEnd
      simp only [Span.shift] at hbound ⊢
      rwa [Source.isWordEnd, Source.byteIs, ← hholds]
    · exact (hholds _ _).symm.trans h.colon

end Exchange

end InlineMethod

end MethodBrowser
