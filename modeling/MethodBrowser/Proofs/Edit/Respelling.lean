import MethodBrowser.Proofs.Edit.Splice
import MethodBrowser.Proofs.Source.Body

/-!
# Respellings

Edits that spell words of the body anew, and perhaps the header, too, lead to an aligned source
(`Respelling.alignment`). So all that is known of aligned sources holds of a renamed method.
-/

namespace MethodBrowser

namespace Edit

/-- The edit spells a word of the body anew. If `keyword` holds, a colon follows the word. -/
structure Respells (s : Source) (keyword : Prop) (e : Edit) : Prop where
  body : s.bodyStart ≤ e.span.start
  word : s.IsWord e.span.start e.span.size
  identifier : isIdentifier e.replacement.toList = true
  colon : keyword → s.codeAt e.span.stop ':' = true

namespace Respells

variable {s : Source} {keyword : Prop} {e : Edit}

theorem lt (h : e.Respells s keyword) : e.span.start < e.span.stop := by
  have hpos := h.word.pos
  rw [Span.size] at hpos
  omega

theorem stop_eq (h : e.Respells s keyword) : e.span.start + e.span.size = e.span.stop := by
  have hlt := h.lt
  rw [Span.size]
  omega

theorem isIdentRest_replacement (h : e.Respells s keyword) :
    ∀ c ∈ e.replacement.toList, isIdentRest c = true :=
  isIdentRest_of_isIdentifier h.identifier

theorem utf8ByteSize (h : e.Respells s keyword) :
    e.replacement.utf8ByteSize = e.replacement.toList.length := by
  rw [utf8ByteSize_eq, utf8Len_of_ascii fun c hc =>
    isAscii_of_isIdentRest (h.isIdentRest_replacement c hc)]

theorem proper (h : e.Respells s keyword) : e.Proper := by
  refine ⟨h.lt, ?_⟩
  have hident := h.identifier
  rw [h.utf8ByteSize]
  cases hcs : e.replacement.toList with
  | nil => simp [hcs, isIdentifier] at hident
  | cons => simp

end Respells

end Edit

namespace Source

variable {src : Source} {i n : Nat}

/-- The characters of a word. -/
theorem IsWord.exists_cut (h : src.IsWord i n) :
    ∃ l w r, src.text.toList = l ++ w ++ r ∧ String.utf8Len l = i ∧ w.length = n ∧
      isIdentifier w = true ∧ Mode.code.after l = .code := by
  obtain ⟨l, w, r, htext, rfl, rfl, hascii⟩ := cut_of_run h.pos fun k hk =>
    holds_of_imp (fun c hc => Cell.isAscii_of_isIdent (Cell.isIdent_of_isWordChar hc)) (h.chars k hk)
  have hrest : ∀ c ∈ w, isIdentRest c = true := by
    intro c hc
    obtain ⟨k, hk, rfl⟩ := List.getElem_of_mem hc
    have hchar := h.chars k hk
    rw [holds, cells_of_cut htext hascii hk] at hchar
    have hident := Cell.isIdent_of_isWordChar (Option.any_some ▸ hchar)
    rwa [Byte.isIdent, (hascii _ (List.get_mem ..)).ofUInt8] at hident
  cases w with
  | nil => exact absurd h.pos (by simp)
  | cons c cs =>
    have hcell := cells_of_cut (k := 0) htext hascii (by simp)
    have hletter := h.letter
    simp only [Nat.add_zero, List.take_zero, List.append_nil, List.get_eq_getElem,
      List.getElem_cons_zero] at hcell
    rw [holds, hcell, Option.any_some, Cell.isLetter, Bool.and_eq_true, Cell.isCode, beq_iff_eq,
      Byte.isIdentStart, (hascii c (by simp)).ofUInt8] at hletter
    rw [List.forall_mem_cons] at hrest
    refine ⟨l, c :: cs, r, htext, rfl, rfl, ?_, Mode.eq_code_of_kind hletter.1⟩
    rw [isIdentifier, Bool.and_eq_true, List.all_eq_true]
    exact ⟨hletter.2, hrest.2⟩

end Source

namespace Edit

theorem Respells.neutral {s : Source} {keyword : Prop} {e : Edit} (h : e.Respells s keyword) :
    e.Neutral s.text.toList := by
  obtain ⟨l, w, r, htext, hlen, hsize, hident, hmode⟩ := h.word.exists_cut
  have hrest := isIdentRest_of_isIdentifier hident
  refine ⟨⟨l, w, r, htext, hlen.symm, ?_, hmode, ?_⟩, ?_⟩
  · rw [utf8Len_of_ascii fun c hc => isAscii_of_isIdentRest (hrest c hc), hlen, hsize, h.stop_eq]
  · rw [Mode.after_append, hmode, after_of_plain fun c hc => isPlain_of_isIdentRest (hrest c hc)]
  · exact after_of_plain fun c hc => isPlain_of_isIdentRest (h.isIdentRest_replacement c hc)

/-- No two respelled words are adjacent. -/
theorem Respells.start_ne_stop {s : Source} {keyword : Prop} {e f : Edit}
    (he : e.Respells s keyword) (hf : f.Respells s keyword) : f.span.start ≠ e.span.stop := by
  intro heq
  have hright := he.word.right
  rw [he.stop_eq, ← heq, Source.isWordEnd] at hright
  have hident : s.byteIs Byte.isIdent f.span.start = true :=
    Source.holds_of_imp (fun c hc => Cell.isIdent_of_isWordChar (Cell.isWordChar_of_isLetter hc))
      hf.word.letter
  simp [hident] at hright

end Edit

/-- The edits `es` lead from `s` to `t`. They lie in the header or spell words of the body anew. -/
structure Respelling (s t : Source) (es : List Edit) (keyword : Prop) : Prop where
  spliced : Edit.Spliced 0 es s.text.toList t.text.toList
  neutral : ∀ e ∈ es, e.Neutral s.text.toList
  proper : ∀ e ∈ es, e.Proper
  each : ∀ e ∈ es, e.span.stop < s.bodyStart ∨ e.Respells s keyword
  bodyStart_pos : 0 < s.bodyStart
  bodyStart_le : s.bodyStart ≤ s.size
  bodyStart_eq : t.bodyStart = Edit.moved 0 es s.bodyStart

namespace Respelling

open Edit

variable {s t : Source} {es : List Edit} {keyword : Prop} (R : Respelling s t es keyword)

include R

theorem getElem?_moved {k : Nat} (hk : Untouched es k) :
    t.cells[moved 0 es k]? = s.cells[k]? := by
  have h := R.spliced.getElem?_classify (l := []) rfl R.neutral R.proper (Nat.zero_le k) hk
  rw [Source.getElem?_cells, Source.getElem?_cells]
  exact h

theorem clear_bodyStart : Clear es s.bodyStart := fun e he =>
  (R.each e he).elim (fun h => .inr (Nat.le_of_lt h)) fun h => .inl h.body

theorem stop_le_size {e : Edit} (he : e ∈ es) : e.span.stop ≤ s.size := by
  obtain ⟨l, w, r, htext, -, hstop, -⟩ := (R.neutral e he).cut
  rw [s.size_eq, htext, hstop]
  simp only [String.utf8Len_append]
  omega

/-- The byte before an offset is untouched unless a respelled word ends there. -/
theorem untouched_pred {k : Nat} (hbody : s.bodyStart ≤ k) (hk : Clear es k)
    (hstop : ∀ e ∈ es, e.Respells s keyword → e.span.stop ≠ k) : Untouched es (k - 1) := by
  intro e he
  have hpos := R.bodyStart_pos
  rcases hk e he with hle | hle
  · exact .inl (by omega)
  · have hne : e.span.stop ≠ k := by
      rcases R.each e he with hlt | hresp
      · omega
      · exact hstop e he hresp
    exact .inr (by omega)

/-- The byte at an offset is untouched unless a respelled word starts there. -/
theorem untouched_of_clear {k : Nat} (hbody : s.bodyStart ≤ k) (hk : Clear es k)
    (hstart : ∀ e ∈ es, e.Respells s keyword → e.span.start ≠ k) : Untouched es k := by
  intro e he
  rcases hk e he with hle | hle
  · have hne : e.span.start ≠ k := by
      rcases R.each e he with hlt | hresp
      · have := R.proper e he
        rw [Proper] at this
        omega
      · exact hstart e he hresp
    exact .inl (by omega)
  · exact .inr hle

theorem moved_pred {k : Nat} (hk : 0 < k) (huntouched : Untouched es (k - 1)) :
    moved 0 es k = moved 0 es (k - 1) + 1 := by
  have h := R.spliced.moved_succ R.proper (Nat.zero_le _) huntouched
  rwa [Nat.sub_add_cancel hk] at h

/-! ## New words -/

theorem getElem?_replacement {e : Edit} (he : e ∈ es) (hresp : e.Respells s keyword) {k : Nat}
    (hk : k < e.replacement.toList.length) :
    t.cells[moved 0 es e.span.start + k]? =
      some ⟨(e.replacement.toList.get ⟨k, hk⟩).toUInt8, .code⟩ := by
  have hcells := R.spliced.getElem?_replacement (l := []) rfl R.neutral R.proper he
    (k := k) (by rw [hresp.utf8ByteSize]; exact hk)
  rw [classify_of_plain fun c hc => isPlain_of_isIdentRest (hresp.isIdentRest_replacement c hc),
    List.getElem?_map, List.getElem?_eq_getElem hk] at hcells
  rw [Source.getElem?_cells]
  exact hcells

theorem holds_replacement {e : Edit} (he : e ∈ es) (hresp : e.Respells s keyword)
    {p : Cell → Bool} {k : Nat} (hk : k < e.replacement.toList.length)
    (hp : p ⟨(e.replacement.toList.get ⟨k, hk⟩).toUInt8, .code⟩ = true) :
    t.holds p (moved 0 es e.span.start + k) = true := by
  rw [Source.holds, R.getElem?_replacement he hresp hk]
  exact hp

/-- The cell before a respelled word stays the same. -/
theorem untouched_start {e : Edit} (he : e ∈ es) (hresp : e.Respells s keyword) :
    Untouched es (e.span.start - 1) :=
  R.untouched_pred hresp.body (R.spliced.clear_ends he).1 fun _ _ hf => (hf.start_ne_stop hresp).symm

/-- The cell after a respelled word stays the same. -/
theorem untouched_stop {e : Edit} (he : e ∈ es) (hresp : e.Respells s keyword) :
    Untouched es e.span.stop :=
  R.untouched_of_clear (Nat.le_trans hresp.body (Nat.le_of_lt hresp.lt))
    (R.spliced.clear_ends he).2 fun _ _ hf => hresp.start_ne_stop hf

/-- The replacement is a word of the new source. -/
theorem isWord_replacement {e : Edit} (he : e ∈ es) (hresp : e.Respells s keyword) :
    t.IsWord (moved 0 es e.span.start) e.replacement.utf8ByteSize := by
  have hpos := R.bodyStart_pos
  have hbody := hresp.body
  refine ⟨hresp.proper.2, ?letter, ?chars, ?left, ?right⟩
  case letter =>
    have hlen := hresp.proper.2
    rw [hresp.utf8ByteSize] at hlen
    refine R.holds_replacement (k := 0) he hresp hlen ?_
    have hident := isIdentStart_of_isIdentifier hresp.identifier hlen
    rw [Cell.isLetter, Byte.isIdentStart,
      (isAscii_of_isIdentRest (isIdentRest_of_isIdentStart hident)).ofUInt8, hident]
    rfl
  case chars =>
    intro k hk
    rw [hresp.utf8ByteSize] at hk
    refine R.holds_replacement he hresp hk ?_
    have hident := hresp.isIdentRest_replacement _ (List.get_mem e.replacement.toList ⟨k, hk⟩)
    rw [Cell.isWordChar, Byte.isIdent, (isAscii_of_isIdentRest hident).ofUInt8, hident]
    rfl
  case left =>
    have huntouched := R.untouched_start he hresp
    have hleft := hresp.word.left
    have hne : (e.span.start == 0) = false := by simp; omega
    rw [Source.isWordStart, hne, Bool.false_or] at hleft
    have hsame : t.byteIs Byte.isIdent (moved 0 es e.span.start - 1) =
        s.byteIs Byte.isIdent (e.span.start - 1) := by
      rw [R.moved_pred (by omega) huntouched, Nat.add_sub_cancel]
      exact Source.holds_congr (R.getElem?_moved huntouched)
    rw [Source.isWordStart, hsame, hleft, Bool.or_true]
  case right =>
    have hright := hresp.word.right
    rw [hresp.stop_eq] at hright
    have hsame : t.byteIs Byte.isIdent (moved 0 es e.span.stop) =
        s.byteIs Byte.isIdent e.span.stop :=
      Source.holds_congr (R.getElem?_moved (R.untouched_stop he hresp))
    rw [← R.spliced.moved_stop R.proper he, Source.isWordEnd, hsame]
    exact hright

/-! ## The alignment -/

/-- The offset lies in the body and not inside a respelled word. -/
def Mark (s : Source) (es : List Edit) (k : Nat) : Prop :=
  s.bodyStart ≤ k ∧ k ≤ s.size ∧ Clear es k

theorem kept {k : Nat} (hk : Mark s es k) (hlt : k < s.size) (huntouched : Untouched es k) :
    Kept s t (Mark s es) (moved 0 es) k := by
  refine ⟨R.getElem?_moved huntouched, ⟨by have := hk.1; omega, hlt, fun e he => ?_⟩,
    R.spliced.moved_succ R.proper (Nat.zero_le k) huntouched⟩
  have := huntouched e he
  omega

theorem respelled {e : Edit} (he : e ∈ es) (hresp : e.Respells s keyword) :
    Respelled s t (Mark s es) (moved 0 es) keyword e.span.start e.span.size
      e.replacement.utf8ByteSize := by
  have hlt := hresp.lt
  have hbody := hresp.body
  have hstop := R.spliced.moved_stop R.proper he
  refine ⟨hresp.word, R.isWord_replacement he hresp, ?_, by rw [hresp.stop_eq, hstop], ?_, ?_⟩
  · rw [hresp.stop_eq]
    exact ⟨by omega, R.stop_le_size he, (R.spliced.clear_ends he).2⟩
  · intro k hk hlt'
    have := hk.2.2 e he
    rw [hresp.stop_eq]
    omega
  · intro hkeyword
    have hcolon := hresp.colon hkeyword
    rw [hresp.stop_eq, ← hstop]
    refine ⟨hcolon, ?_⟩
    rw [Source.codeAt, Source.holds, R.getElem?_moved (R.untouched_stop he hresp)]
    exact hcolon

/-- A source and its respelling are aligned. -/
def alignment : Alignment s t where
  mark := Mark s es
  shift := moved 0 es
  keyword := keyword
  mark_bodyStart := ⟨Nat.le_refl _, R.bodyStart_le, R.clear_bodyStart⟩
  shift_bodyStart := R.bodyStart_eq.symm
  mark_size := ⟨R.bodyStart_le, Nat.le_refl _, fun _ he => .inr (R.stop_le_size he)⟩
  shift_size := by
    have h := R.spliced.moved_end R.proper
    rw [Nat.zero_add, ← s.size_eq, ← t.size_eq] at h
    exact h
  bodyStart_le h := h.1
  le_size h := h.2.1
  shift_lt_iff hi hj :=
    R.spliced.moved_lt_iff R.proper (Nat.zero_le _) (Nat.zero_le _) hi.2.2 hj.2.2
  pos {k} hk := by
    have hpos := R.bodyStart_pos
    have hbody := hk.1
    have hzero : Clear es 0 := fun _ _ => .inl (Nat.zero_le _)
    have := R.spliced.moved_lt R.proper (Nat.zero_le _) hzero hk.2.2 (by omega)
    omega
  step {k} hk hlt := by
    by_cases hstart : ∃ e ∈ es, e.Respells s keyword ∧ e.span.start = k
    · obtain ⟨e, he, hresp, rfl⟩ := hstart
      exact .inr ⟨_, _, R.respelled he hresp⟩
    · refine .inl (R.kept hk hlt (R.untouched_of_clear hk.1 hk.2.2 fun e he hresp heq => ?_))
      exact hstart ⟨e, he, hresp, heq⟩
  back {k} hk := by
    by_cases hstop : ∃ e ∈ es, e.Respells s keyword ∧ e.span.stop = k
    · obtain ⟨e, he, hresp, rfl⟩ := hstop
      refine .inr ⟨_, _, _, ?_, R.respelled he hresp, hresp.stop_eq.symm⟩
      have hle := R.stop_le_size he
      have hlt := hresp.lt
      exact ⟨hresp.body, by omega, (R.spliced.clear_ends he).1⟩
    · have hpos := R.bodyStart_pos
      have hbody := hk.1
      have huntouched := R.untouched_pred hk.1 hk.2.2 fun e he hresp heq =>
        hstop ⟨e, he, hresp, heq⟩
      have hpred := R.moved_pred (by omega) huntouched
      refine .inl ⟨?_, fun hlt => ⟨⟨by omega, by have := hk.2.1; omega, huntouched.clear⟩,
        by omega⟩⟩
      rw [hpred, Nat.add_sub_cancel]
      exact R.getElem?_moved huntouched

/-- The new word is spelled by the replacement. -/
theorem slice_replacement {e : Edit} (he : e ∈ es) (hresp : e.Respells s keyword) :
    t.slice ⟨moved 0 es e.span.start, moved 0 es e.span.stop⟩ = e.replacement := by
  have hascii : ∀ c ∈ e.replacement.toList, IsAscii c := fun c hc =>
    isAscii_of_isIdentRest (hresp.isIdentRest_replacement c hc)
  rw [R.spliced.moved_stop R.proper he, hresp.utf8ByteSize,
    Source.slice_eq_of_bytes hascii fun k hk => ?_, String.ofList_toList]
  have hcell := R.getElem?_replacement he hresp hk
  rw [hcell]
  rfl

end Respelling

/-! ## Where respellings come from -/

open Edit

variable {s t : Source} {es : List Edit} {keyword : Prop}

/-- Edits of the body alone. -/
theorem Respelling.of_spliced (hspliced : Spliced 0 es s.text.toList t.text.toList)
    (hresp : ∀ e ∈ es, e.Respells s keyword) (hline : '\n' ∈ s.text.toList) :
    Respelling s t es keyword := by
  obtain ⟨line, rest, htext, hnot⟩ := List.eq_append_cons_of_mem hline
  have hbody := Source.bodyStart_of_newline htext hnot
  have hlen : String.utf8Len (line ++ ['\n']) = s.bodyStart := by
    rw [hbody, String.utf8Len_append]
    rfl
  have htext' : s.text.toList = (line ++ ['\n']) ++ rest := by simpa using htext
  rw [htext'] at hspliced
  obtain ⟨rest', ht, -⟩ := hspliced.drop_prefix fun e he => by
    rw [hlen, Nat.zero_add]
    exact (hresp e he).body
  refine ⟨htext' ▸ hspliced, fun e he => (hresp e he).neutral, fun e he => (hresp e he).proper,
    fun e he => .inr (hresp e he), by omega, s.bodyStart_le_size, ?_⟩
  have ht' : t.text.toList = line ++ '\n' :: rest' := by simpa using ht
  rw [moved_of_le fun e he => (hresp e he).body, hbody, Source.bodyStart_of_newline ht' hnot]
  rfl

/-- Edits of the body and an edit of the start of the header line. -/
theorem Respelling.of_header {u : List Char} {h : Edit} {sig tail rest : List Char}
    (hspliced : Spliced 0 es s.text.toList (sig ++ u))
    (hresp : ∀ e ∈ es, e.Respells s keyword)
    (htext : s.text.toList = sig ++ (tail ++ '\n' :: rest)) (hline : '\n' ∉ sig ++ tail)
    (hspan : h.span = ⟨0, String.utf8Len sig⟩) (hneutral : h.Neutral s.text.toList)
    (hproper : h.Proper) (hnew : '\n' ∉ h.replacement.toList)
    (ht : t.text.toList = h.replacement.toList ++ u) : Respelling s t (h :: es) keyword := by
  have htext' : s.text.toList = sig ++ tail ++ '\n' :: rest := by simpa using htext
  have hbody := Source.bodyStart_of_newline htext' hline
  have hlen : String.utf8Len (sig ++ tail ++ ['\n']) = s.bodyStart := by
    rw [hbody, String.utf8Len_append (sig ++ tail)]
    rfl
  -- The body edits lead from `rest` to `rest'`, after the same header line.
  have hold : s.text.toList = (sig ++ tail ++ ['\n']) ++ rest := by simpa using htext
  rw [hold] at hspliced
  obtain ⟨rest', hu, hrest⟩ := hspliced.drop_prefix fun e he => by
    rw [hlen, Nat.zero_add]
    exact (hresp e he).body
  obtain rfl : u = tail ++ '\n' :: rest' := by simpa using hu
  have htail : Spliced h.span.stop es (tail ++ '\n' :: rest) (tail ++ '\n' :: rest') := by
    have hprepend := hrest.prepend (j := h.span.stop) (g := tail ++ ['\n']) (by
      simp only [hspan, String.utf8Len_append]
      omega)
    simpa using hprepend
  have hall : Spliced 0 (h :: es) s.text.toList t.text.toList := by
    have hcons : Spliced 0 (h :: es) ([] ++ sig ++ (tail ++ '\n' :: rest))
        ([] ++ h.replacement.toList ++ (tail ++ '\n' :: rest')) :=
      .cons (by rw [hspan]; rfl) (by rw [hspan, Nat.zero_add]) htail
    rw [htext, ht]
    simpa using hcons
  have hsize : String.utf8Len sig < s.bodyStart := by
    rw [hbody, String.utf8Len_append]
    omega
  have ht' : t.text.toList = h.replacement.toList ++ tail ++ '\n' :: rest' := by
    rw [ht]
    simp
  have hline' : '\n' ∉ h.replacement.toList ++ tail := by
    simp only [List.mem_append, not_or] at hline ⊢
    exact ⟨hnew, hline.2⟩
  refine ⟨hall, List.forall_mem_cons.2 ⟨hneutral, fun e he => (hresp e he).neutral⟩,
    List.forall_mem_cons.2 ⟨hproper, fun e he => (hresp e he).proper⟩,
    List.forall_mem_cons.2 ⟨.inl (by rw [hspan]; exact hsize), fun e he => .inr (hresp e he)⟩,
    by omega, s.bodyStart_le_size, ?_⟩
  rw [Source.bodyStart_of_newline ht' hline', moved, if_neg (by rw [hspan]; simp only; omega),
    moved_of_le fun e he => (hresp e he).body, utf8ByteSize_eq, hspan, hbody]
  simp only [String.utf8Len_append]
  omega

end MethodBrowser
