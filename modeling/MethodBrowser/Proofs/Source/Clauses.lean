import MethodBrowser.Proofs.Source.Cuts
import MethodBrowser.Proofs.Source.ExcerptRegion

/-!
# Bodies made of clauses

A body is written as clauses with periods between them (`joined`). A clause is a statement with white
space and comments around it, or white space and comments alone. This module shows that the body of a
method can be taken apart into clauses (`Source.Layout.exists_clauses`), and that a body which is put
together from clauses is laid out as their statements, each of them an excerpt (`Prose.layout`). So a
statement is replaced, or moved to another method, by moving clauses.

**What makes clauses fit** (`Prose`). A clause that another one follows must close its groups, literals
and comments, and one that follows another must not start with a digit, which would make a decimal
point of the period. Only the last clause may be left open.
-/

namespace MethodBrowser

/-- A byte that no token goes on after: no identifier character, `#` or colon. -/
def Byte.isBoundary (b : UInt8) : Bool :=
  !(Byte.isIdent b || (b == '#'.toUInt8 || b == ':'.toUInt8))

theorem Byte.isBoundary_of_isBlank {b : UInt8} (h : Byte.isBlank b = true) :
    Byte.isBoundary b = true := by
  simp only [Byte.isBlank, Bool.or_eq_true, beq_iff_eq] at h
  rcases h with (((rfl | rfl) | rfl) | rfl) | rfl <;> decide

/-! ## A text by itself -/

namespace Source

variable {src : Source} {l w r g : List Char} {n : Nesting}

def ofChars (cs : List Char) : Source := .ofText (String.ofList cs)

theorem getElem?_ofChars (cs : List Char) (k : Nat) :
    (ofChars cs).cells[k]? = (classify .code cs)[k]? := by
  rw [getElem?_cells, ofChars, ofText, String.toList_ofList]

theorem size_ofChars (cs : List Char) : (ofChars cs).size = String.utf8Len cs := by
  rw [size_eq, ofChars, ofText, String.toList_ofList]

/-- The cells of a part of a text are those of the part by itself. -/
theorem Cut.window (h : src.Cut l (w ++ r)) {k : Nat} (hk : k < String.utf8Len w) :
    src.cells[String.utf8Len l + k]? = (ofChars w).cells[k]? := by
  rw [h.cell, getElem?_ofChars, classify_append,
    List.getElem?_append_left (by rwa [length_classify])]

/-- The first byte of a text is that of its first part. -/
theorem byteIs_zero_append {q : UInt8 → Bool} (hw : w ≠ []) (r : List Char) :
    (ofChars (w ++ r)).byteIs q 0 = (ofChars w).byteIs q 0 := by
  refine holds_congr ?_
  rw [getElem?_ofChars, getElem?_ofChars, classify_append, List.getElem?_append_left]
  rw [length_classify, Nat.pos_iff_ne_zero, ne_eq, String.utf8Len_eq_zero]
  exact hw

theorem Cut.after (h : src.Cut l (g ++ r)) (hg : r ≠ [] → Mode.code.after g = .code) :
    src.Cut (l ++ g) r := by
  refine ⟨by rw [h.text, List.append_assoc], fun hr => ?_⟩
  rw [Mode.after_append, h.mode (by simp [hr]), hg hr]

/-- A part is idle if it is white space and comments. -/
theorem Cut.idle_iff (h : src.Cut l (g ++ r)) :
    src.Idle (String.utf8Len l) (String.utf8Len l + String.utf8Len g) ↔ IsTail g := by
  constructor
  · intro hidle cell hmem
    obtain ⟨k, hk⟩ := List.mem_iff_getElem?.1 hmem
    have hlt : k < String.utf8Len g := by
      rw [← length_classify .code]
      exact (List.getElem?_eq_some_iff.1 hk).1
    have hcell := hidle (String.utf8Len l + k) (by omega) (by omega)
    rwa [isSignificant, holds, h.window hlt, getElem?_ofChars, hk, Option.any_some] at hcell
  · intro htail k hle hlt
    obtain ⟨d, rfl⟩ := Nat.exists_eq_add_of_le hle
    rw [isSignificant, holds, h.window (by omega), getElem?_ofChars]
    cases hcell : (classify .code g)[d]? with
    | none => rfl
    | some cell => exact htail cell (List.mem_of_getElem? hcell)

theorem Cut.idle_size_iff (h : src.Cut l g) : src.Idle (String.utf8Len l) src.size ↔ IsTail g := by
  rw [h.size]
  exact Cut.idle_iff (r := []) (by rwa [List.append_nil])

theorem Cut.nestFrom (h : src.Cut l (w ++ r)) :
    src.nestFrom n (String.utf8Len l) (String.utf8Len l + String.utf8Len w) =
      (ofChars w).nestFrom n 0 (String.utf8Len w) :=
  nestFrom_window (Nat.zero_le _) fun _ _ hk => h.window hk

/-! ## Excerpts of a text -/

/-- What is not significant is white space or a comment. -/
theorem isBlank_or_comment {cell : Cell} (h : cell.isSignificant = false) :
    cell.kind = .code ∧ Byte.isBlank cell.byte = true ∨ cell.kind = .comment := by
  obtain ⟨b, kind⟩ := cell
  cases kind <;> simp_all [Cell.isSignificant]

/-- The byte before what is significant, if it is not significant itself. -/
theorem isBoundary_before {i : Nat} (hidle : src.isSignificant i = false)
    (hnext : src.isSignificant (i + 1) = true) : src.byteIs Byte.isBoundary i = true := by
  have hlt : i < src.cells.size := Nat.lt_of_succ_lt (lt_size_of_holds hnext)
  have hcell : src.cells[i]? = some src.cells[i] := Array.getElem?_eq_getElem hlt
  rw [isSignificant, holds, hcell, Option.any_some] at hidle
  rw [isSignificant, holds, Option.any_eq_true] at hnext
  obtain ⟨next, hcell', hnext⟩ := hnext
  rw [byteIs, holds, hcell, Option.any_some]
  rcases isBlank_or_comment hidle with ⟨-, hblank⟩ | hcomment
  · exact Byte.isBoundary_of_isBlank hblank
  · rw [byte_of_closes hcell hcell' hcomment (kind_ne_comment_of_isSignificant hnext)]
    decide

/-- The byte after what is significant, if it is not significant itself. -/
theorem isEnd_after {i : Nat} (hprev : src.isSignificant i = true)
    (hidle : src.isSignificant (i + 1) = false) : src.holds (fun c => !c.isEnd) (i + 1) = false := by
  rw [holds]
  cases hcell : src.cells[i + 1]? with
  | none => rfl
  | some cell =>
    rw [isSignificant, holds, hcell, Option.any_some] at hidle
    rw [isSignificant, holds, Option.any_eq_true] at hprev
    obtain ⟨prev, hcell', hprev⟩ := hprev
    rw [Option.any_some, Bool.not_eq_false', Cell.isEnd]
    rcases isBlank_or_comment hidle with ⟨hkind, hblank⟩ | hcomment
    · simp [Cell.isGap, Cell.isCode, hkind, hblank]
    · have hbyte := byte_of_opens hcell' hcell (kind_ne_comment_of_isSignificant hprev) hcomment
      simp [hcomment, hbyte]

theorem isEnd_of_isTerminator {i : Nat} (h : src.isTerminator i = true) :
    src.holds (fun c => !c.isEnd) i = false := by
  rw [isTerminator, Bool.and_eq_true] at h
  exact holds_eq_of (fun c hc => by simp [Cell.isEnd, hc]) h.1

theorem isBoundary_of_codeAt {i : Nat} {x : Char} (hx : Byte.isBoundary x.toUInt8 = true)
    (h : src.codeAt i x = true) : src.byteIs Byte.isBoundary i = true := by
  refine holds_of_imp (fun c hc => ?_) h
  rw [Cell.isCodeChar, Bool.and_eq_true, beq_iff_eq] at hc
  rw [hc.2, hx]

/-- The byte before a statement bounds words. -/
theorem isBoundary_of_opening {floor left i : Nat} (hfirst : src.isSignificant i = true)
    (hfloor : floor ≤ left) (hleft : left ≤ i) (hbefore : src.Idle left i)
    (hopening : floor < left → src.isTerminator (left - 1) = true)
    (hbound : floor = 0 ∨ src.byteIs Byte.isBoundary (floor - 1) = true) :
    i = 0 ∨ src.byteIs Byte.isBoundary (i - 1) = true := by
  rcases Nat.eq_or_lt_of_le hleft with rfl | hlt
  · rcases Nat.eq_or_lt_of_le hfloor with rfl | hlt
    · exact hbound
    · have hterm := hopening hlt
      rw [isTerminator, Bool.and_eq_true] at hterm
      exact .inr (isBoundary_of_codeAt (by decide) hterm.1)
  · refine .inr (isBoundary_before (hbefore _ (by omega) (by omega)) ?_)
    rwa [Nat.sub_add_cancel (by omega)]

/-- The byte after a statement ends words. -/
theorem isEnd_of_closing {right i : Nat} (hlast : src.isSignificant i = true) (hright : i + 1 ≤ right)
    (hafter : src.Idle (i + 1) right) (hclosing : right < src.size → src.isTerminator right = true) :
    src.holds (fun c => !c.isEnd) (i + 1) = false := by
  rcases Nat.eq_or_lt_of_le hright with rfl | hlt
  · rcases Nat.lt_or_ge (i + 1) src.size with hlt | hge
    · exact isEnd_of_isTerminator (hclosing hlt)
    · exact holds_of_size_le hge
  · exact isEnd_after hlast (hafter _ (Nat.le_refl _) hlt)

/-- A part of a text between white space, comments and periods is an excerpt. -/
theorem Cut.exists_excerpt {l w r : List Char} {floor left : Nat} (right : Nat)
    (hcut : src.Cut l (w ++ r)) (hpos : 0 < String.utf8Len w)
    (hfirst : src.isSignificant (String.utf8Len l) = true)
    (hlast : src.isSignificant (String.utf8Len l + (String.utf8Len w - 1)) = true)
    (hfloor : floor ≤ left) (hleft : left ≤ String.utf8Len l)
    (hbefore : src.Idle left (String.utf8Len l))
    (hopening : floor < left →
      src.isTerminator (left - 1) = true ∧ src.nestFrom .empty floor left = .empty)
    (hbound : floor = 0 ∨ src.byteIs Byte.isBoundary (floor - 1) = true)
    (hright : String.utf8Len l + String.utf8Len w ≤ right)
    (hafter : src.Idle (String.utf8Len l + String.utf8Len w) right)
    (hclosing : right < src.size → src.isTerminator right = true ∧
      src.byteIs Byte.isDigit (right + 1) = false ∧
        src.nestFrom .empty (String.utf8Len l) right = .empty) :
    ∃ E : Excerpt (.ofChars w) src, E.floor = floor ∧ E.offset = String.utf8Len l := by
  have hsize := size_ofChars w
  have hend : String.utf8Len l + (String.utf8Len w - 1) + 1 = String.utf8Len l + String.utf8Len w := by
    omega
  refine ⟨⟨floor, left, String.utf8Len l, right, hsize ▸ hpos, fun hk => hcut.window (hsize ▸ hk),
    ?_, ?_, hfloor, hleft, hbefore, hopening, isBoundary_of_opening hfirst hfloor hleft hbefore
      (fun hlt => (hopening hlt).1) hbound, hsize ▸ hright, hsize ▸ hafter, hclosing, ?_⟩, rfl, rfl⟩
  · exact (holds_congr (hcut.window (k := 0) hpos)).symm.trans hfirst
  · rw [hsize]
    exact (holds_congr (hcut.window (by omega))).symm.trans hlast
  · rw [hsize, ← hend]
    exact isEnd_of_closing hlast (hend ▸ hright) (hend ▸ hafter) fun hlt => (hclosing hlt).1

end Source

/-- A part of a text is a sentence if it is one by itself. -/
theorem Excerpt.sentence_iff {w s : Source} (E : Excerpt w s) :
    s.Sentence ⟨E.offset, E.offset + w.size⟩ ↔ w.Sentence w.span := by
  have hpos := E.pos
  have hends : ∀ k < w.size,
      s.endsStatement .empty E.offset (E.offset + k) = w.endsStatement .empty 0 k := fun k hk => by
    have hnest := E.nestFrom_shift (m := .empty) (Nat.zero_le (k + 1)) hk
    rw [Nat.add_zero] at hnest
    rw [Source.endsStatement, Source.endsStatement, Nat.add_assoc, hnest, E.isTerminator_shift hk]
  constructor
  · intro h
    refine ⟨hpos, E.first, E.last, fun k _ hk => ?_⟩
    change k < w.size at hk
    rw [← h.whole (E.offset + k) (Nat.le_add_right ..) (by simp only; omega)]
    exact (hends k hk).symm
  · intro h
    refine ⟨by simp only; omega, ?_, ?_, fun k hle hlt => ?_⟩
    · have hfirst := E.holds_shift (p := Cell.isSignificant) hpos
      rw [Source.isSignificant]
      exact hfirst.trans E.first
    · simp only
      rw [Source.isSignificant, show E.offset + w.size - 1 = E.offset + (w.size - 1) by omega,
        E.holds_shift (by omega)]
      exact E.last
    · simp only at hle hlt ⊢
      obtain ⟨d, rfl⟩ := Nat.exists_eq_add_of_le hle
      rw [hends d (by omega)]
      exact h.whole d (Nat.zero_le _) (show d < w.size by omega)

/-! ## Clauses -/

/-- A text that is a sentence. -/
def IsSentence (cs : List Char) : Prop := (Source.ofChars cs).Sentence (Source.ofChars cs).span

/-- A text that closes its literals, comments and groups. -/
structure IsClosed (cs : List Char) : Prop where
  mode : Mode.code.after cs = .code
  nest : (Source.ofChars cs).nestFrom .empty 0 (String.utf8Len cs) = .empty

/-- What stands between two periods. -/
inductive Clause where
  /-- White space and comments. -/
  | blank (gap : List Char)
  /-- A statement with white space and comments around it. -/
  | sentence (before text after : List Char)

namespace Clause

def chars : Clause → List Char
  | blank gap => gap
  | sentence before text after => before ++ (text ++ after)

def text? : Clause → Option (List Char)
  | blank _ => none
  | sentence _ text _ => some text

/-- The clause may be the last one. -/
def Final : Clause → Prop
  | blank gap => IsTail gap
  | sentence before text after =>
    IsGap before ∧ IsSentence text ∧ IsTail after ∧ (after ≠ [] → Mode.code.after text = .code)

/-- The clause may be followed by another one. -/
def Closed : Clause → Prop
  | blank gap => IsGap gap
  | sentence before text after => IsGap before ∧ IsSentence text ∧ IsClosed text ∧ IsGap after

/-- The clause may follow another one: it does not start with a digit. -/
def Follows (c : Clause) : Prop := (Source.ofChars c.chars).byteIs Byte.isDigit 0 = false

theorem Closed.final {c : Clause} (h : c.Closed) : c.Final := by
  cases c with
  | blank gap => exact h.idle
  | sentence before text after =>
    obtain ⟨hbefore, htext, hclosed, hafter⟩ := h
    exact ⟨hbefore, htext, hafter.idle, fun _ => hclosed.mode⟩

theorem Closed.mode {c : Clause} (h : c.Closed) : Mode.code.after c.chars = .code := by
  cases c with
  | blank gap => exact IsGap.closed h
  | sentence before text after =>
    obtain ⟨hbefore, -, hclosed, hafter⟩ := h
    rw [chars, Mode.after_append, Mode.after_append, hbefore.closed, hclosed.mode, hafter.closed]

end Clause

/-- The texts of the statements in some clauses. -/
def texts (cs : List Clause) : List (List Char) := cs.filterMap Clause.text?

/-- The spans of these statements, if the clauses are joined and start at an offset. -/
def spansFrom (i : Nat) : List Clause → List Span
  | [] => []
  | .blank gap :: cs => spansFrom (i + String.utf8Len gap + 1) cs
  | .sentence before text after :: cs =>
    ⟨i + String.utf8Len before, i + String.utf8Len before + String.utf8Len text⟩ ::
      spansFrom (i + String.utf8Len before + String.utf8Len text + String.utf8Len after + 1) cs

/-- Clauses with periods between them. -/
def joined : List Clause → List Char
  | [] => []
  | [c] => c.chars
  | c :: c' :: cs => c.chars ++ '.' :: joined (c' :: cs)

/-- Clauses that can be joined. -/
structure Prose (cs : List Clause) : Prop where
  ne_nil : cs ≠ []
  final : ∀ c ∈ cs, c.Final
  closed : cs.Pairwise fun c c' => c.Closed ∧ c'.Follows

theorem Prose.tail {c c' : Clause} {cs : List Clause} (h : Prose (c :: c' :: cs)) :
    c.Closed ∧ c'.Follows ∧ Prose (c' :: cs) := by
  have hfollow := List.rel_of_pairwise_cons h.closed (List.mem_cons_self ..)
  exact ⟨hfollow.1, hfollow.2, by simp, fun d hd => h.final d (List.mem_cons_of_mem _ hd),
    (List.pairwise_cons.1 h.closed).2⟩

theorem Prose.single {c : Clause} (h : c.Final) : Prose [c] :=
  ⟨by simp, by simpa using h, List.pairwise_singleton ..⟩

/-- The first byte of joined clauses is that of the first one, or a period. -/
theorem not_isDigit_joined (c : Clause) (cs : List Clause) :
    (Source.ofChars (joined (c :: cs))).byteIs Byte.isDigit 0 = false ↔ c.Follows := by
  cases cs with
  | nil => rfl
  | cons c' cs =>
    rw [joined, Clause.Follows]
    by_cases hchars : c.chars = []
    · rw [hchars, Source.byteIs, Source.byteIs, Source.holds, Source.holds, Source.getElem?_ofChars,
        Source.getElem?_ofChars]
      exact iff_of_true rfl rfl
    · rw [Source.byteIs_zero_append hchars]

theorem Prose.cons {c : Clause} {cs : List Clause} (hc : c.Closed) (h : Prose cs)
    (hdigit : (Source.ofChars (joined cs)).byteIs Byte.isDigit 0 = false) :
    Prose (c :: cs) ∧ joined (c :: cs) = c.chars ++ '.' :: joined cs := by
  cases cs with
  | nil => exact absurd rfl h.ne_nil
  | cons c' cs =>
    refine ⟨⟨by simp, List.forall_mem_cons.2 ⟨hc.final, h.final⟩,
      List.pairwise_cons.2 ⟨fun d hd => ⟨hc, ?_⟩, h.closed⟩⟩, rfl⟩
    rcases List.mem_cons.1 hd with rfl | hd
    · exact (not_isDigit_joined d cs).1 hdigit
    · exact (List.rel_of_pairwise_cons h.closed hd).2

/-! ## Statements of joined clauses -/

/-- A span of a source is a statement with the given text. -/
def Source.IsPart (src : Source) (floor : Nat) (sp : Span) (w : List Char) : Prop :=
  ∃ E : Excerpt (.ofChars w) src,
    E.floor = floor ∧ sp = ⟨E.offset, E.offset + String.utf8Len w⟩ ∧ src.slice sp = String.ofList w

section Layout

variable {src : Source} {l before text after rest : List Char} {floor : Nat}

/-- A statement that is written between white space and comments. -/
theorem Source.Cut.isPart (hcut : src.Cut l (before ++ (text ++ (after ++ rest))))
    (hbefore : IsGap before) (htext : IsSentence text) (hafter : IsTail after)
    (hmode : after ++ rest ≠ [] → Mode.code.after text = .code)
    (hfloor : floor ≤ String.utf8Len l)
    (hopening : floor < String.utf8Len l → src.isTerminator (String.utf8Len l - 1) = true ∧
      src.nestFrom .empty floor (String.utf8Len l) = .empty)
    (hbound : floor = 0 ∨ src.byteIs Byte.isBoundary (floor - 1) = true)
    (hclosing : rest ≠ [] → IsClosed text ∧
      src.isTerminator (String.utf8Len (l ++ before ++ text ++ after)) = true ∧
      src.byteIs Byte.isDigit (String.utf8Len (l ++ before ++ text ++ after) + 1) = false) :
    let sp : Span := ⟨String.utf8Len (l ++ before), String.utf8Len (l ++ before ++ text)⟩
    src.IsPart floor sp text ∧ src.Sentence sp ∧ src.Idle (String.utf8Len l) sp.start ∧
      src.Idle sp.stop (String.utf8Len (l ++ before ++ text ++ after)) ∧
      (rest ≠ [] → src.nestFrom .empty sp.start sp.stop = .empty) := by
  have hcut₁ : src.Cut (l ++ before) (text ++ (after ++ rest)) := hcut.after fun _ => hbefore.closed
  have hcut₂ : src.Cut (l ++ before ++ text) (after ++ rest) := hcut₁.after hmode
  have hlt : 0 < String.utf8Len text := by
    have := htext.lt
    rwa [Source.span, Source.size_ofChars] at this
  have hidle := hcut.idle_iff.2 hbefore.idle
  have hidle' := hcut₂.idle_iff.2 hafter
  have hnest : rest ≠ [] → src.nestFrom .empty (String.utf8Len (l ++ before))
      (String.utf8Len (l ++ before) + String.utf8Len text) = .empty := fun hrest => by
    rw [hcut₁.nestFrom, (hclosing hrest).1.nest]
  have hsize := hcut₂.size
  simp only [String.utf8Len_append] at hidle hidle' hclosing hnest hsize ⊢
  have hfirst : src.isSignificant (String.utf8Len (l ++ before)) = true :=
    (Source.holds_congr (hcut₁.window (k := 0) hlt)).trans htext.first
  have hlast : src.isSignificant (String.utf8Len (l ++ before) + (String.utf8Len text - 1)) = true := by
    have hlast := htext.last
    rw [Source.span, Source.size_ofChars] at hlast
    exact (Source.holds_congr (hcut₁.window (by omega))).trans hlast
  obtain ⟨E, rfl, hoffset⟩ := hcut₁.exists_excerpt
    (String.utf8Len l + String.utf8Len before + String.utf8Len text + String.utf8Len after) hlt hfirst
    hlast hfloor (by rw [String.utf8Len_append]; omega) (by rwa [String.utf8Len_append]) hopening
    hbound (by rw [String.utf8Len_append]; omega) (by rwa [String.utf8Len_append]) fun hright => by
      have hrest : rest ≠ [] := by
        rintro rfl
        simp only [String.utf8Len_nil] at hsize
        omega
      refine ⟨(hclosing hrest).2.1, (hclosing hrest).2.2, ?_⟩
      rw [String.utf8Len_append, Source.nestFrom_trans (Nat.le_add_right _ (String.utf8Len text))
        (by omega), hnest hrest, hidle'.nestFrom]
  rw [String.utf8Len_append] at hoffset
  have hsentence := E.sentence_iff.2 htext
  rw [hoffset, Source.size_ofChars] at hsentence
  refine ⟨⟨E, rfl, by rw [hoffset], ?_⟩, hsentence, hidle, hidle', hnest⟩
  rw [← String.utf8Len_append]
  exact Source.slice_of_cut (r := after ++ rest) (by rw [hcut₁.text]; simp)

/-- The byte after a period is the first one of the rest. -/
theorem Source.Cut.isDigit_period (hcut : src.Cut (l ++ ['.']) rest) :
    src.byteIs Byte.isDigit (String.utf8Len l + 1) = (ofChars rest).byteIs Byte.isDigit 0 := by
  have hcell := hcut.cell 0
  rw [Nat.add_zero, String.utf8Len_append] at hcell
  refine holds_congr ?_
  rw [getElem?_ofChars, ← hcell]
  rfl

/-- A period that no digit follows ends a statement. -/
theorem Source.Cut.period (hcut : src.Cut l ('.' :: rest))
    (hdigit : (Source.ofChars rest).byteIs Byte.isDigit 0 = false) :
    src.Cut (l ++ ['.']) rest ∧ src.isTerminator (String.utf8Len l) = true ∧
      src.byteIs Byte.isDigit (String.utf8Len l + 1) = false := by
  have hcut' : src.Cut (l ++ ['.']) rest := Cut.after (g := ['.']) hcut fun _ => rfl
  have hperiod : src.codeAt (String.utf8Len l) '.' = true := by
    have hcell := hcut.cell 0
    rw [Nat.add_zero] at hcell
    rw [codeAt, holds, hcell]
    rfl
  have hnext := hcut'.isDigit_period.trans hdigit
  refine ⟨hcut', ?_, hnext⟩
  rw [isTerminator, hperiod, hnext]
  simp

section Layout

variable (hfloor : floor ≤ String.utf8Len l)
  (hopening : floor < String.utf8Len l → src.isTerminator (String.utf8Len l - 1) = true ∧
    src.nestFrom .empty floor (String.utf8Len l) = .empty)
  (hbound : floor = 0 ∨ src.byteIs Byte.isBoundary (floor - 1) = true)
include hfloor hopening hbound

/-- The last clause. -/
theorem Clause.Final.layout {c : Clause} (h : c.Final) (hcut : src.Cut l c.chars) :
    src.Layout src.size (String.utf8Len l) (spansFrom (String.utf8Len l) [c]) ∧
      List.Forall₂ (src.IsPart floor) (spansFrom (String.utf8Len l) [c]) (texts [c]) := by
  have hsize := hcut.size
  cases c with
  | blank gap => exact ⟨.idle (by omega) (hcut.idle_size_iff.2 h), .nil⟩
  | sentence before text after =>
    obtain ⟨hbefore, htext, hafter, hmode⟩ := h
    rw [Clause.chars] at hsize hcut
    have hcut' : src.Cut l (before ++ (text ++ (after ++ []))) := by simpa using hcut
    obtain ⟨hpart, hsentence, hidle, hidle', -⟩ := hcut'.isPart hbefore htext hafter
      (by simpa using hmode) hfloor hopening hbound (by simp)
    simp only [String.utf8Len_append] at hpart hsentence hidle hidle' hsize
    refine ⟨.last (Nat.le_add_right ..) hidle hsentence (by simp only; omega) ?_, .cons hpart .nil⟩
    rwa [hsize, ← Nat.add_assoc, ← Nat.add_assoc]

/-- A clause, if what follows its period is laid out. -/
theorem Clause.Closed.layout {c : Clause} {cs : List Clause} (hc : c.Closed)
    (hcut : src.Cut l (c.chars ++ '.' :: joined cs))
    (hterm : src.isTerminator (String.utf8Len (l ++ c.chars)) = true)
    (hdigit : src.byteIs Byte.isDigit (String.utf8Len (l ++ c.chars) + 1) = false)
    (hrest : src.nestFrom .empty floor (String.utf8Len (l ++ c.chars) + 1) = .empty →
      src.Layout src.size (String.utf8Len (l ++ c.chars) + 1)
          (spansFrom (String.utf8Len (l ++ c.chars) + 1) cs) ∧
        List.Forall₂ (src.IsPart floor) (spansFrom (String.utf8Len (l ++ c.chars) + 1) cs) (texts cs)) :
    src.Layout src.size (String.utf8Len l) (spansFrom (String.utf8Len l) (c :: cs)) ∧
      List.Forall₂ (src.IsPart floor) (spansFrom (String.utf8Len l) (c :: cs)) (texts (c :: cs)) := by
  have hopen : src.nestFrom .empty floor (String.utf8Len l) = .empty := by
    rcases Nat.eq_or_lt_of_le hfloor with rfl | hlt
    · exact Source.nestFrom_self
    · exact (hopening hlt).2
  have hle : String.utf8Len l ≤ String.utf8Len (l ++ c.chars) := by
    rw [String.utf8Len_append]
    exact Nat.le_add_right ..
  have hrest' := fun hnest : src.nestFrom .empty (String.utf8Len l) (String.utf8Len (l ++ c.chars)) =
      .empty => hrest (Source.nestFrom_of_period (Nat.le_trans hfloor hle) hterm (by
    rw [Source.nestFrom_trans hfloor hle, hopen, hnest]))
  have hsize : String.utf8Len (l ++ c.chars) < src.size := by
    rw [Source.isTerminator, Bool.and_eq_true] at hterm
    exact Source.lt_size_of_holds hterm.1
  cases c with
  | blank gap =>
    have hidle := hcut.idle_iff.2 (IsGap.idle hc)
    simp only [Clause.chars, String.utf8Len_append] at hrest' hidle hterm hsize
    obtain ⟨hlayout, hparts⟩ := hrest' hidle.nestFrom
    exact ⟨.skip (Nat.le_add_right ..) hsize hidle hterm hlayout, hparts⟩
  | sentence before text after =>
    obtain ⟨hbefore, htext, hclosed, hafter⟩ := hc
    simp only [Clause.chars, String.utf8Len_append, ← Nat.add_assoc] at hrest' hterm hdigit hsize
    have hcut' : src.Cut l (before ++ (text ++ (after ++ '.' :: joined cs))) := by
      simpa [Clause.chars] using hcut
    obtain ⟨hpart, hsentence, hidle, hidle', hnest⟩ := hcut'.isPart hbefore htext hafter.idle
      (fun _ => hclosed.mode) hfloor hopening hbound fun _ => ⟨hclosed, by
        simpa only [String.utf8Len_append] using ⟨hterm, hdigit⟩⟩
    simp only [String.utf8Len_append] at hpart hsentence hidle hidle' hnest
    have hnest' := hnest (by simp)
    obtain ⟨hlayout, hparts⟩ := hrest' (Source.nestFrom_of_balanced (Nat.le_add_right ..) hidle
      hsentence.lt hnest' (Nat.le_add_right ..) hidle')
    exact ⟨.cons (Nat.le_add_right ..) hidle hsentence hnest' (Nat.le_add_right ..) hsize hidle' hterm
      hlayout, .cons hpart hparts⟩

/-- Joined clauses are laid out as their statements. -/
theorem Prose.layout {cs : List Clause} (h : Prose cs) (hcut : src.Cut l (joined cs)) :
    src.Layout src.size (String.utf8Len l) (spansFrom (String.utf8Len l) cs) ∧
      List.Forall₂ (src.IsPart floor) (spansFrom (String.utf8Len l) cs) (texts cs) := by
  induction cs generalizing l with
  | nil => exact absurd rfl h.ne_nil
  | cons c cs ih =>
    cases cs with
    | nil => exact (h.final c (List.mem_cons_self ..)).layout hfloor hopening hbound hcut
    | cons c' cs =>
      obtain ⟨hc, hc', htail⟩ := h.tail
      have hcut' := Source.Cut.after hcut fun _ => hc.mode
      obtain ⟨hrest, hterm, hdigit⟩ := hcut'.period ((not_isDigit_joined c' cs).2 hc')
      have hlen : String.utf8Len (l ++ c.chars ++ ['.']) = String.utf8Len (l ++ c.chars) + 1 := by
        rw [String.utf8Len_append]
        rfl
      refine hc.layout hfloor hopening hbound hcut hterm hdigit fun hnest => ?_
      rw [← hlen]
      refine ih ?_ (fun _ => ?_) htail hrest
      · rw [hlen, String.utf8Len_append]
        omega
      · rw [hlen, Nat.add_sub_cancel]
        exact ⟨hterm, hnest⟩

end Layout

/-! ## Taking a body apart -/

theorem Source.Cut.exists_period {r : List Char} {k : Nat} (hcut : src.Cut l r)
    (hle : String.utf8Len l ≤ k) (hterm : src.isTerminator k = true) :
    ∃ g r', r = g ++ '.' :: r' ∧ String.utf8Len (l ++ g) = k ∧ src.Cut (l ++ g) ('.' :: r') ∧
      src.Cut (l ++ g ++ ['.']) r' := by
  rw [isTerminator, Bool.and_eq_true] at hterm
  obtain ⟨l', r', hcut₁, rfl, hcut₂, -⟩ := cutAt_of_codeAt isPlain_period hterm.1
  obtain ⟨g, rfl, rfl⟩ := append_eq_append_of_le (hcut.text.symm.trans hcut₁.text) hle
  exact ⟨g, r', rfl, rfl, hcut₁, hcut₂⟩

/-- The mode of a part that starts and ends in code. -/
theorem Source.Cut.mode_part {g r : List Char} (hcut : src.Cut l (g ++ r)) (hcut' : src.Cut (l ++ g) r)
    (hr : r ≠ []) : Mode.code.after g = .code := by
  have hmode := hcut'.mode hr
  rwa [Mode.after_append, hcut.mode (by simp [hr])] at hmode

/-- A sentence is cut out of a text. -/
theorem Source.Sentence.exists_cut {r : List Char} {sp : Span} {right : Nat} (h : src.Sentence sp)
    (hcut : src.Cut l r) (hle : String.utf8Len l ≤ sp.start)
    (hbefore : src.Idle (String.utf8Len l) sp.start)
    (hbound : String.utf8Len l = 0 ∨ src.byteIs Byte.isBoundary (String.utf8Len l - 1) = true)
    (hright : sp.stop ≤ right) (hsize : right ≤ src.size) (hafter : src.Idle sp.stop right)
    (hclosing : right < src.size → src.isTerminator right = true ∧
      src.byteIs Byte.isDigit (right + 1) = false ∧ src.nestFrom .empty sp.start sp.stop = .empty) :
    ∃ g w r', r = g ++ (w ++ r') ∧ String.utf8Len (l ++ g) = sp.start ∧
      String.utf8Len (l ++ g ++ w) = sp.stop ∧ IsGap g ∧ IsSentence w ∧ src.Cut (l ++ g ++ w) r' ∧
      (r' ≠ [] → Mode.code.after w = .code) ∧
      (right < src.size → (ofChars w).nestFrom .empty 0 (String.utf8Len w) = .empty) := by
  have hlt := h.lt
  have hfirst : src.CutAt sp.start :=
    hcut.cutAt.idle hle (by omega) hbefore fun cell hcell => kind_ne_comment_of_isSignificant (by
      have hfirst := h.first
      rwa [isSignificant, holds, hcell, Option.any_some] at hfirst)
  obtain ⟨g, r₁, rfl, hstart, hcut₁⟩ := hcut.extend hfirst hle
  have hlast : src.CutAt sp.stop := cutAt_of_end (by omega) (by omega) h.last fun hend => by
    rcases Nat.eq_or_lt_of_le hright with heq | hlt'
    · have hterm := (hclosing (heq ▸ hend)).1
      rw [isTerminator, Bool.and_eq_true, ← heq] at hterm
      exact .inr hterm.1
    · exact .inl (hafter _ (Nat.le_refl _) hlt')
  obtain ⟨w, r₂, rfl, hstop, hcut₂⟩ := hcut₁.extend hlast (by omega)
  have hlen : String.utf8Len (l ++ g) + String.utf8Len w = sp.stop := by
    rw [← hstop, String.utf8Len_append (l ++ g)]
  have hw : w ++ r₂ ≠ [] := fun hnil => by
    simp only [(List.append_eq_nil_iff.1 hnil).1, String.utf8Len_nil] at hlen
    omega
  have hidle : IsTail g := hcut.idle_iff.1 (by rwa [← String.utf8Len_append, hstart])
  obtain ⟨E, -, hoffset⟩ := hcut₁.exists_excerpt right (by omega) (by rw [hstart]; exact h.first)
    (by
      rw [show String.utf8Len (l ++ g) + (String.utf8Len w - 1) = sp.stop - 1 by omega]
      exact h.last)
    (Nat.le_refl _) (by omega) (by rwa [hstart]) (by omega) hbound (by omega) (by rwa [hlen])
    fun hend => by
      obtain ⟨hterm, hdigit, hnest⟩ := hclosing hend
      refine ⟨hterm, hdigit, ?_⟩
      rw [hstart, nestFrom_trans (Nat.le_of_lt hlt) hright, hnest, hafter.nestFrom]
  have hsentence : IsSentence w := E.sentence_iff.1 (by
    have hspan : (⟨E.offset, E.offset + (ofChars w).size⟩ : Span) = sp := by
      rw [size_ofChars, hoffset, hlen, hstart]
    rw [hspan]
    exact h)
  refine ⟨g, w, r₂, rfl, hstart, hstop, ⟨hidle, hcut.mode_part hcut₁ hw⟩, hsentence, hcut₂,
    hcut₁.mode_part hcut₂, fun hend => ?_⟩
  rw [← hcut₁.nestFrom, hlen, hstart]
  exact (hclosing hend).2.2

/-- What follows the period of a statement. -/
theorem Source.after_period {c k : Nat} (hck : c ≤ k) (hterm : src.isTerminator k = true)
    (hnest : src.nestFrom .empty c k = .empty)
    (hdigit : ∀ k, c ≤ k → src.endsStatement .empty c k = true →
      src.byteIs Byte.isDigit (k + 1) = false) :
    src.byteIs Byte.isBoundary k = true ∧ src.byteIs Byte.isDigit (k + 1) = false ∧
      ∀ j, k + 1 ≤ j → src.endsStatement .empty (k + 1) j = true →
        src.byteIs Byte.isDigit (j + 1) = false := by
  have hopen := nestFrom_of_period hck hterm hnest
  refine ⟨?_, hdigit k hck ?_, fun j hj hends => hdigit j (by omega) ?_⟩
  · rw [isTerminator, Bool.and_eq_true] at hterm
    exact isBoundary_of_codeAt (x := '.') (by decide) hterm.1
  · rw [endsStatement, hopen, hterm]
    rfl
  · rw [endsStatement_trans (Nat.le_succ_of_le hck) hj, hopen, hends]

/-- A body is made of clauses, unless a digit follows the period of a statement. -/
theorem Source.Layout.exists_clauses {c : Nat} {spans : List Span} (h : src.Layout src.size c spans)
    {r : List Char} (hcut : src.Cut l r) (hlen : String.utf8Len l = c)
    (hbound : c = 0 ∨ src.byteIs Byte.isBoundary (c - 1) = true)
    (hdigit : ∀ k, c ≤ k → src.endsStatement .empty c k = true →
      src.byteIs Byte.isDigit (k + 1) = false) :
    ∃ cs, Prose cs ∧ joined cs = r ∧ spansFrom c cs = spans := by
  induction h generalizing l r with
  | @idle c hc hidle =>
    subst hlen
    exact ⟨[.blank r], .single (hcut.idle_size_iff.1 hidle), rfl, rfl⟩
  | @last c sp hc hbefore hsp hle hafter =>
    subst hlen
    obtain ⟨g, w, a, rfl, hstart, hstop, hg, hw, hcut', hmode, -⟩ :=
      hsp.exists_cut hcut hc hbefore hbound hle (Nat.le_refl _) hafter (by omega)
    have ha : IsTail a := hcut'.idle_size_iff.1 (by rwa [hstop])
    refine ⟨[.sentence g w a], .single ⟨hg, hw, ha, hmode⟩, rfl, ?_⟩
    rw [String.utf8Len_append] at hstop hstart
    rw [String.utf8Len_append, hstart] at hstop
    rw [spansFrom, spansFrom, hstart, hstop]
  | @skip c k spans hck hk hidle hterm _ ih =>
    subst hlen
    obtain ⟨g, r', rfl, rfl, hcut₁, hcut₂⟩ := hcut.exists_period hck hterm
    have hg : IsGap g := ⟨hcut.idle_iff.1 (by rwa [← String.utf8Len_append]),
      hcut.mode_part hcut₁ (by simp)⟩
    obtain ⟨hbound', hfollows, hdigit'⟩ := after_period hck hterm hidle.nestFrom hdigit
    obtain ⟨cs, hprose, rfl, hspans⟩ := ih hcut₂ (String.utf8Len_append ..) (.inr hbound') hdigit'
    obtain ⟨hprose', hjoined⟩ := hprose.cons (c := .blank g) hg
      (hcut₂.isDigit_period.symm.trans hfollows)
    refine ⟨_, hprose', hjoined, ?_⟩
    rw [spansFrom, ← String.utf8Len_append, hspans]
  | @cons c k sp spans hc hbefore hsp hbalanced hle hk hafter hterm _ ih =>
    subst hlen
    have hlt := hsp.lt
    have hck : String.utf8Len l ≤ k := by omega
    obtain ⟨hbound', hfollows, hdigit'⟩ := after_period hck hterm
      (nestFrom_of_balanced hc hbefore hlt hbalanced hle hafter) hdigit
    obtain ⟨g, w, r', rfl, hstart, hstop, hg, hw, hcut₁, hmode, hnest⟩ := hsp.exists_cut hcut hc hbefore
      hbound hle (Nat.le_of_lt hk) hafter fun _ => ⟨hterm, hfollows, hbalanced⟩
    obtain ⟨a, r, rfl, rfl, hcut₂, hcut₃⟩ := hcut₁.exists_period (by omega) hterm
    have ha : IsGap a := ⟨hcut₁.idle_iff.1 (by rwa [← String.utf8Len_append, hstop]),
      hcut₁.mode_part hcut₂ (by simp)⟩
    obtain ⟨cs, hprose, rfl, hspans⟩ := ih hcut₃ (String.utf8Len_append ..) (.inr hbound') hdigit'
    obtain ⟨hprose', hjoined⟩ := hprose.cons (c := .sentence g w a)
      ⟨hg, hw, ⟨hmode (by simp), hnest hk⟩, ha⟩ (hcut₃.isDigit_period.symm.trans hfollows)
    refine ⟨_, hprose', by rw [hjoined, Clause.chars]; simp, ?_⟩
    rw [String.utf8Len_append] at hstop hstart
    rw [String.utf8Len_append, hstart] at hstop
    rw [spansFrom, ← hspans, hstart, hstop, String.utf8Len_append, String.utf8Len_append,
      String.utf8Len_append, hstart, hstop]

end Layout

end MethodBrowser
