import Mathlib.Algebra.GroupWithZero.Nat
import Mathlib.Data.List.Basic
import MethodBrowser.Edit
import MethodBrowser.Proofs.Source.Characters

/-!
# Splicing

What a list of edits does to a text (`Edit.Spliced`), and where an offset of the old text is found
in the new one (`Edit.moved`).

Edits that are in order and apart, and whose ends are cuts of the text, are all carried out
(`Edit.splice_of_spliced`). If the reader of the text is in code mode before and after each edited
span and each replacement, then the cells outside the edited spans stay the same
(`Edit.Spliced.getElem?_classify`).
-/

namespace MethodBrowser

namespace Edit

/-! ## Texts before and after -/

/-- The characters `new` arise from the characters `old`, of which the first stands at the offset
`i`, by putting each replacement in the place of its span. -/
inductive Spliced : Nat → List Edit → List Char → List Char → Prop
  | nil {i : Nat} {cs : List Char} : Spliced i [] cs cs
  | cons {i : Nat} {e : Edit} {es : List Edit} {gap word rest rest' : List Char} :
      e.span.start = i + String.utf8Len gap →
      e.span.stop = e.span.start + String.utf8Len word →
      Spliced e.span.stop es rest rest' →
      Spliced i (e :: es) (gap ++ word ++ rest) (gap ++ e.replacement.toList ++ rest')

/-- Text before the first edit is copied. -/
theorem Spliced.prepend {i j : Nat} {es : List Edit} {old new g : List Char}
    (h : Spliced i es old new) (hi : i = j + String.utf8Len g) :
    Spliced j es (g ++ old) (g ++ new) := by
  cases h with
  | nil => exact .nil
  | @cons _ e es gap' word rest rest' hstart hstop hrest =>
    have hstart' : e.span.start = j + String.utf8Len (g ++ gap') := by
      rw [String.utf8Len_append]
      omega
    have h := Spliced.cons hstart' hstop hrest
    simpa only [List.append_assoc] using h

/-- Text before the first edit is left as it is. -/
theorem Spliced.drop_prefix {i : Nat} {es : List Edit} {gap old new : List Char}
    (h : Spliced i es (gap ++ old) new) (hle : ∀ e ∈ es, i + String.utf8Len gap ≤ e.span.start) :
    ∃ new', new = gap ++ new' ∧ Spliced (i + String.utf8Len gap) es old new' := by
  generalize hcs : gap ++ old = cs at h
  cases h with
  | nil => exact ⟨old, hcs.symm, .nil⟩
  | @cons _ e es gap' word rest rest' hstart hstop hrest =>
    have hfirst := hle e (by simp)
    rw [List.append_assoc] at hcs
    obtain ⟨m, rfl, rfl⟩ := append_eq_append_of_le hcs (by omega)
    rw [String.utf8Len_append] at hstart
    refine ⟨m ++ e.replacement.toList ++ rest', by simp, ?_⟩
    rw [← List.append_assoc]
    exact .cons (by omega) hstop hrest

/-- Both ends of the edited span are cuts of the text, and the reader is in code mode there and
after the replacement. -/
structure Neutral (text : List Char) (e : Edit) : Prop where
  cut : ∃ l w r, text = l ++ w ++ r ∧ e.span.start = String.utf8Len l ∧
    e.span.stop = String.utf8Len l + String.utf8Len w ∧ Mode.code.after l = .code ∧
    Mode.code.after (l ++ w) = .code
  replacement : Mode.code.after e.replacement.toList = .code

/-- The cuts of an edit in the rest of a text. -/
theorem Neutral.cut_rest {e : Edit} {l r : List Char} (h : Neutral (l ++ r) e)
    (hle : String.utf8Len l ≤ e.span.start) :
    ∃ gap word rest, r = gap ++ word ++ rest ∧
      e.span.start = String.utf8Len l + String.utf8Len gap ∧
      e.span.stop = e.span.start + String.utf8Len word ∧
      Mode.code.after (l ++ gap) = .code ∧ Mode.code.after (l ++ gap ++ word) = .code := by
  obtain ⟨l', w, r', htext, hstart, hstop, hmode, hmode'⟩ := h.cut
  rw [List.append_assoc] at htext
  obtain ⟨gap, rfl, rfl⟩ := append_eq_append_of_le htext (by omega)
  rw [String.utf8Len_append] at hstart
  exact ⟨gap, w, r', by simp, hstart, by rw [String.utf8Len_append] at hstop; omega, hmode, hmode'⟩

/-- Edits in order, each one ending before the next one starts. -/
def Apart (es : List Edit) : Prop := es.Pairwise fun a b => a.span.stop ≤ b.span.start

theorem Neutral.hasSpan {e : Edit} {text : String} (h : Neutral text.toList e) :
    Text.HasSpan text e.span := by
  obtain ⟨l, w, r, htext, hstart, hstop, -, -⟩ := h.cut
  have hspan := Text.hasSpan_of_append htext
  rwa [← hstop, ← hstart] at hspan

theorem exists_spliced {es : List Edit} {text : String} {l r : List Char}
    (htext : text.toList = l ++ r) (hspans : ∀ e ∈ es, Text.HasSpan text e.span)
    (hapart : Apart es) (hle : ∀ e ∈ es, String.utf8Len l ≤ e.span.start) :
    ∃ new, Spliced (String.utf8Len l) es r new := by
  induction es generalizing l r with
  | nil => exact ⟨r, .nil⟩
  | cons e es ih =>
    rw [List.forall_mem_cons] at hspans hle
    rw [Apart, List.pairwise_cons] at hapart
    obtain ⟨gap, r', rfl, hstart⟩ := hspans.1.start.extend htext hle.1
    have htext' : text.toList = (l ++ gap) ++ r' := by rw [htext, List.append_assoc]
    have hlen : String.utf8Len (l ++ gap) = e.span.start := by rw [String.utf8Len_append, hstart]
    obtain ⟨word, rest, rfl, hstop⟩ :=
      hspans.1.stop.extend htext' (Nat.le_trans (Nat.le_of_eq hlen) hspans.1.le)
    have hlen' : String.utf8Len (l ++ gap ++ word) = e.span.stop := by
      rw [String.utf8Len_append, hstop]
    obtain ⟨new, hnew⟩ := ih (l := l ++ gap ++ word) (r := rest)
      (by rw [htext', List.append_assoc (l ++ gap)]) hspans.2 hapart.2
      (fun e' he' => by rw [hlen']; exact hapart.1 e' he')
    rw [hlen'] at hnew
    rw [← List.append_assoc]
    exact ⟨gap ++ e.replacement.toList ++ new, .cons hstart (by rw [hstop, hlen]) hnew⟩

/-- Edits in order are all carried out. -/
theorem splice_of_spliced {es : List Edit} {text : String} {l r new : List Char}
    (htext : text.toList = l ++ r) (h : Spliced (String.utf8Len l) es r new) :
    (splice text (String.utf8Len l) es).toList = new := by
  have hofList : text = String.ofList (l ++ r) := by rw [← htext, String.ofList_toList]
  induction es generalizing l r new with
  | nil =>
    cases h
    have hend : text.rawEndPos = ⟨String.utf8Len l + String.utf8Len r⟩ := by
      rw [hofList, String.rawEndPos_ofList, String.utf8Len_append]
    have hextract := String.extract_of_valid l r []
    rw [List.append_nil, ← hofList] at hextract
    rw [splice, hend, hextract, String.toList_ofList]
  | cons e es ih =>
    cases h with
    | @cons _ _ _ gap word rest rest' hstart hstop hrest =>
      have hsize : text.utf8ByteSize =
          String.utf8Len l + String.utf8Len gap + String.utf8Len word + String.utf8Len rest := by
        rw [← String.utf8Len_toList, htext]
        simp only [String.utf8Len_append]
        omega
      have hlen : String.utf8Len (l ++ gap ++ word) = e.span.stop := by
        rw [String.utf8Len_append, String.utf8Len_append]
        omega
      have hskip : ¬(e.span.start < String.utf8Len l || text.utf8ByteSize < e.span.stop) = true := by
        simp only [Bool.or_eq_true, decide_eq_true_eq, not_or]
        omega
      rw [← hlen] at hrest
      have hrest' := ih (l := l ++ gap ++ word) (r := rest) (by simpa using htext) hrest
        (by simpa using hofList)
      have hgap := String.extract_of_valid l gap (word ++ rest)
      rw [show l ++ gap ++ (word ++ rest) = l ++ (gap ++ word ++ rest) by simp, ← hofList,
        ← hstart] at hgap
      rw [splice, if_neg hskip, hgap, String.toList_append, String.toList_append,
        String.toList_ofList, ← hlen, hrest']

/-! ## Edits in any order -/

/-- The edits in the order in which they are carried out. -/
def sorted (edits : List Edit) : List Edit := edits.mergeSort fun a b => a.span.le b.span

theorem sorted_perm (edits : List Edit) : (sorted edits).Perm edits := List.mergeSort_perm ..

theorem pairwise_sorted (edits : List Edit) :
    (sorted edits).Pairwise fun a b => a.span.le b.span = true :=
  Span.pairwise_mergeSort Edit.span edits

/-- Edits that start at different places, each one ending before the next one starts. -/
theorem apart_sorted {edits : List Edit}
    (hne : edits.Pairwise fun a b => a.span.start ≠ b.span.start)
    (hstop : ∀ a ∈ edits, ∀ b ∈ edits, a.span.start < b.span.start → a.span.stop ≤ b.span.start) :
    Apart (sorted edits) := by
  have hne' : (sorted edits).Pairwise fun a b => a.span.start ≠ b.span.start :=
    ((sorted_perm edits).pairwise_iff fun h => h.symm).2 hne
  refine ((pairwise_sorted edits).and hne').imp_of_mem fun {a b} ha hb hab => ?_
  have ha' := (sorted_perm edits).mem_iff.1 ha
  have hb' := (sorted_perm edits).mem_iff.1 hb
  refine hstop a ha' b hb' ?_
  have := Span.le_iff.1 hab.1
  have := hab.2
  omega

/-- Edits that are apart and end at cuts of the text are all carried out. -/
theorem exists_applyAll (text : String) {edits : List Edit}
    (hspans : ∀ e ∈ edits, Text.HasSpan text e.span) (hapart : Apart (sorted edits)) :
    Spliced 0 (sorted edits) text.toList (applyAll text edits).toList := by
  have hspans' : ∀ e ∈ sorted edits, Text.HasSpan text e.span := fun e he =>
    hspans e ((sorted_perm edits).mem_iff.1 he)
  obtain ⟨new, hnew⟩ := exists_spliced (l := []) rfl hspans' hapart fun _ _ => Nat.zero_le _
  have hsplice := splice_of_spliced (l := []) rfl hnew
  rw [applyAll]
  change Spliced 0 (sorted edits) text.toList (splice text 0 (sorted edits)).toList
  rw [show (0 : Nat) = String.utf8Len [] from rfl, hsplice]
  exact hnew

/-! ## Offsets before and after -/

/-- Where the offset `k` of a text is found after edits that are in order, counted from the offset
`i` on. -/
def moved (i : Nat) : List Edit → Nat → Nat
  | [], k => k - i
  | e :: es, k =>
    if k ≤ e.span.start then k - i
    else e.span.start - i + e.replacement.utf8ByteSize + moved e.span.stop es k

/-- The offset is not inside an edited span. -/
def Clear (es : List Edit) (k : Nat) : Prop := ∀ e ∈ es, k ≤ e.span.start ∨ e.span.stop ≤ k

/-- The byte at the offset is no part of an edited span. -/
def Untouched (es : List Edit) (k : Nat) : Prop := ∀ e ∈ es, k < e.span.start ∨ e.span.stop ≤ k

theorem Untouched.clear {es : List Edit} {k : Nat} (h : Untouched es k) : Clear es k :=
  fun e he => (h e he).imp_left Nat.le_of_lt

/-- Neither the edited span nor the replacement is empty. -/
def Proper (e : Edit) : Prop := e.span.start < e.span.stop ∧ 0 < e.replacement.utf8ByteSize

theorem Spliced.le_start {i : Nat} {es : List Edit} {old new : List Char}
    (h : Spliced i es old new) : ∀ e ∈ es, i ≤ e.span.start ∧ e.span.start ≤ e.span.stop := by
  induction h with
  | nil => simp
  | @cons i e es gap word rest rest' hstart hstop _ ih =>
    refine List.forall_mem_cons.2 ⟨by omega, fun e' he' => ?_⟩
    have := ih e' he'
    omega

/-- The ends of an edited span are not inside another one. -/
theorem Spliced.clear_ends {i : Nat} {es : List Edit} {old new : List Char}
    (h : Spliced i es old new) {e : Edit} (he : e ∈ es) :
    Clear es e.span.start ∧ Clear es e.span.stop := by
  induction h with
  | nil => simp at he
  | @cons i f es gap word rest rest' hstart hstop hrest ih =>
    have hafter := hrest.le_start
    rcases List.mem_cons.1 he with rfl | he
    · refine ⟨List.forall_mem_cons.2 ⟨by omega, fun g hg => ?_⟩,
        List.forall_mem_cons.2 ⟨by omega, fun g hg => ?_⟩⟩
      · have := hafter g hg
        omega
      · have := hafter g hg
        omega
    · have hle := hafter e he
      exact ⟨List.forall_mem_cons.2 ⟨by omega, (ih he).1⟩,
        List.forall_mem_cons.2 ⟨by omega, (ih he).2⟩⟩

theorem moved_of_le {i k : Nat} {es : List Edit} (h : ∀ e ∈ es, k ≤ e.span.start) :
    moved i es k = k - i := by
  cases es with
  | nil => rfl
  | cons e es => rw [moved, if_pos (h e (by simp))]

/-- Offsets keep their order. -/
theorem Spliced.moved_lt {i : Nat} {es : List Edit} {old new : List Char}
    (h : Spliced i es old new) (hproper : ∀ e ∈ es, e.Proper) {j k : Nat} (hij : i ≤ j)
    (hj : Clear es j) (hk : Clear es k) (hjk : j < k) : moved i es j < moved i es k := by
  induction h generalizing j with
  | nil => simp only [moved]; omega
  | @cons i e es gap word rest rest' hstart hstop hrest ih =>
    rw [List.forall_mem_cons] at hproper
    rw [Clear, List.forall_mem_cons] at hj hk
    obtain ⟨hspan, hsize⟩ := hproper.1
    simp only [moved]
    by_cases hke : k ≤ e.span.start
    · rw [if_pos hke, if_pos (by omega)]
      omega
    · rw [if_neg hke]
      by_cases hje : j ≤ e.span.start
      · rw [if_pos hje]
        omega
      · rw [if_neg hje]
        have := ih hproper.2 (by omega) hj.2 hk.2 hjk
        omega

theorem Spliced.moved_lt_iff {i : Nat} {es : List Edit} {old new : List Char}
    (h : Spliced i es old new) (hproper : ∀ e ∈ es, e.Proper) {j k : Nat} (hij : i ≤ j)
    (hik : i ≤ k) (hj : Clear es j) (hk : Clear es k) :
    moved i es j < moved i es k ↔ j < k := by
  constructor
  · intro hlt
    rcases Nat.lt_trichotomy j k with hjk | rfl | hkj
    · exact hjk
    · omega
    · have := h.moved_lt hproper hik hk hj hkj
      omega
  · exact h.moved_lt hproper hij hj hk

/-- The byte after an untouched one is found right after it. -/
theorem Spliced.moved_succ {i : Nat} {es : List Edit} {old new : List Char}
    (h : Spliced i es old new) (hproper : ∀ e ∈ es, e.Proper) {k : Nat} (hik : i ≤ k)
    (hk : Untouched es k) : moved i es (k + 1) = moved i es k + 1 := by
  induction h with
  | nil => simp only [moved]; omega
  | @cons i e es gap word rest rest' hstart hstop hrest ih =>
    rw [List.forall_mem_cons] at hproper
    rw [Untouched, List.forall_mem_cons] at hk
    obtain ⟨hspan, -⟩ := hproper.1
    simp only [moved]
    rcases hk.1 with hlt | hle
    · rw [if_pos (by omega), if_pos (by omega)]
      omega
    · rw [if_neg (by omega), if_neg (by omega), ih hproper.2 hle hk.2]
      omega

/-- A replacement takes up the place of its span. -/
theorem Spliced.moved_stop {i : Nat} {es : List Edit} {old new : List Char}
    (h : Spliced i es old new) (hproper : ∀ e ∈ es, e.Proper) {e : Edit} (he : e ∈ es) :
    moved i es e.span.stop = moved i es e.span.start + e.replacement.utf8ByteSize := by
  induction h with
  | nil => simp at he
  | @cons i f es gap word rest rest' hstart hstop hrest ih =>
    rw [List.forall_mem_cons] at hproper
    obtain ⟨hspan, -⟩ := hproper.1
    have hafter := hrest.le_start
    rcases List.mem_cons.1 he with rfl | he
    · rw [moved, moved, if_neg (by omega), if_pos (Nat.le_refl _),
        moved_of_le fun e' he' => (hafter e' he').1]
      omega
    · have hspan' := hproper.2 e he
      have hle := hafter e he
      rw [moved, moved, if_neg (by omega), if_neg (by omega), ih hproper.2 he]
      omega

theorem utf8ByteSize_eq (e : Edit) :
    e.replacement.utf8ByteSize = String.utf8Len e.replacement.toList :=
  (String.utf8Len_toList _).symm

/-- The end of the text is found at the end. -/
theorem Spliced.moved_end {i : Nat} {es : List Edit} {old new : List Char}
    (h : Spliced i es old new) (hproper : ∀ e ∈ es, e.Proper) :
    moved i es (i + String.utf8Len old) = String.utf8Len new := by
  induction h with
  | nil => simp [moved]
  | @cons i e es gap word rest rest' hstart hstop hrest ih =>
    rw [List.forall_mem_cons] at hproper
    obtain ⟨hspan, -⟩ := hproper.1
    have hend := ih hproper.2
    simp only [String.utf8Len_append]
    rw [moved, if_neg (by omega), utf8ByteSize_eq,
      show i + (String.utf8Len gap + String.utf8Len word + String.utf8Len rest) =
        e.span.stop + String.utf8Len rest by omega, hend]
    omega

/-! ## Displacement -/

/-- The bytes that the edits before the offset `k` put in. -/
def inserted (edits : List Edit) (k : Nat) : Nat :=
  ((edits.filter (·.span.start < k)).map (·.replacement.utf8ByteSize)).sum

/-- The bytes that the edits before the offset `k` take out. -/
def removed (edits : List Edit) (k : Nat) : Nat :=
  ((edits.filter (·.span.start < k)).map (·.span.size)).sum

/-- The offset `k` carried through edits, in whatever order they are given. -/
def displace (edits : List Edit) (k : Nat) : Nat := k + inserted edits k - removed edits k

theorem displace_perm {es edits : List Edit} (h : es.Perm edits) (k : Nat) :
    displace es k = displace edits k := by
  have hfilter := h.filter (·.span.start < k)
  simp only [displace, inserted, removed]
  rw [(hfilter.map (·.replacement.utf8ByteSize)).sum_nat, (hfilter.map (·.span.size)).sum_nat]

theorem inserted_cons (e : Edit) (es : List Edit) (k : Nat) :
    inserted (e :: es) k =
      (if e.span.start < k then e.replacement.utf8ByteSize else 0) + inserted es k := by
  simp only [inserted, List.filter_cons, decide_eq_true_eq]
  split <;> simp

theorem removed_cons (e : Edit) (es : List Edit) (k : Nat) :
    removed (e :: es) k = (if e.span.start < k then e.span.size else 0) + removed es k := by
  simp only [removed, List.filter_cons, decide_eq_true_eq]
  split <;> simp

theorem eq_zero_of_le {es : List Edit} {k : Nat} (h : ∀ e ∈ es, k ≤ e.span.start) :
    inserted es k = 0 ∧ removed es k = 0 := by
  have hnil : es.filter (fun e => decide (e.span.start < k)) = [] := by
    rw [List.filter_eq_nil_iff]
    intro e he
    have := h e he
    simpa using this
  constructor
  · rw [inserted, hnil]
    rfl
  · rw [removed, hnil]
    rfl

theorem Spliced.moved_add {i : Nat} {es : List Edit} {old new : List Char}
    (h : Spliced i es old new) {k : Nat} (hik : i ≤ k) (hk : Clear es k) :
    moved i es k + i + removed es k = k + inserted es k := by
  induction h with
  | nil => simp only [moved, inserted, removed, List.filter_nil, List.map_nil, List.sum_nil]; omega
  | @cons i e es gap word rest rest' hstart hstop hrest ih =>
    rw [Clear, List.forall_mem_cons] at hk
    have hafter := hrest.le_start
    rw [moved, inserted_cons, removed_cons]
    by_cases hle : k ≤ e.span.start
    · obtain ⟨h₁, h₂⟩ := eq_zero_of_le fun e' he' =>
        Nat.le_trans hle (Nat.le_trans (by omega) (hafter e' he').1)
      rw [if_pos hle, if_neg (by omega), if_neg (by omega), h₁, h₂]
      omega
    · have hrec := ih (by omega) hk.2
      rw [if_neg hle, if_pos (by omega), if_pos (by omega), Span.size]
      omega

/-- Where an offset is found is its displacement. -/
theorem Spliced.moved_eq {es : List Edit} {old new : List Char} (h : Spliced 0 es old new)
    {k : Nat} (hk : Clear es k) : moved 0 es k = displace es k := by
  have := h.moved_add (Nat.zero_le k) hk
  rw [displace]
  omega

/-! ## Cells before and after -/

/-- The reader of the new text is in code mode where an edited span starts and ends. -/
theorem Spliced.classify_cons {e : Edit} {l gap word rest n : List Char}
    (hneutral : Neutral (l ++ (gap ++ word ++ rest)) e)
    (hstart : e.span.start = String.utf8Len l + String.utf8Len gap)
    (hstop : e.span.stop = e.span.start + String.utf8Len word) :
    Mode.code.after (l ++ gap ++ word) = .code ∧
      classify (Mode.code.after l) (gap ++ e.replacement.toList ++ n) =
        classify (Mode.code.after l) gap ++
          (classify .code e.replacement.toList ++ classify .code n) := by
  obtain ⟨gap', word', rest', heq, hstart', hstop', hmode, hmode'⟩ :=
    hneutral.cut_rest (by omega)
  simp only [List.append_assoc] at heq
  obtain ⟨rfl, hrest⟩ := append_inj_of_utf8Len heq (by omega)
  obtain ⟨rfl, rfl⟩ := append_inj_of_utf8Len hrest (by omega)
  refine ⟨hmode', ?_⟩
  rw [Mode.after_append] at hmode
  rw [List.append_assoc, classify_append, classify_append, hmode, hneutral.replacement]

/-- Untouched cells stay the same. -/
theorem Spliced.getElem?_classify {es : List Edit} {l old new : List Char} {i : Nat}
    (h : Spliced i es old new) (hi : i = String.utf8Len l)
    (hneutral : ∀ e ∈ es, Neutral (l ++ old) e) (hproper : ∀ e ∈ es, e.Proper) {k : Nat}
    (hik : i ≤ k) (hk : Untouched es k) :
    (classify (Mode.code.after l) new)[moved i es k]? = (classify .code (l ++ old))[k]? := by
  induction h generalizing l with
  | nil =>
    rw [moved, classify_append, List.getElem?_append_right (by rw [length_classify]; omega),
      length_classify, hi]
  | @cons i e es gap word rest rest' hstart hstop hrest ih =>
    rw [List.forall_mem_cons] at hneutral hproper
    rw [Untouched, List.forall_mem_cons] at hk
    obtain ⟨hspan, -⟩ := hproper.1
    obtain ⟨hmode, hcells⟩ := classify_cons (n := rest') hneutral.1 (by omega) hstop
    rw [hcells, moved]
    rcases hk.1 with hlt | hle
    · rw [if_pos (by omega), List.getElem?_append_left (by rw [length_classify]; omega),
        List.append_assoc, classify_append,
        List.getElem?_append_right (by rw [length_classify]; omega), classify_append,
        List.getElem?_append_left (by rw [length_classify, length_classify]; omega),
        length_classify, hi]
    · have hlen : e.span.stop = String.utf8Len (l ++ gap ++ word) := by
        rw [String.utf8Len_append, String.utf8Len_append]
        omega
      have hrec := ih (l := l ++ gap ++ word) hlen
        (fun e' he' => by simpa using hneutral.2 e' he') hproper.2 hle hk.2
      rw [hmode] at hrec
      rw [if_neg (by omega), utf8ByteSize_eq,
        List.getElem?_append_right (by rw [length_classify]; omega), length_classify,
        List.getElem?_append_right (by rw [length_classify]; omega), length_classify,
        show e.span.start - i + String.utf8Len e.replacement.toList + moved e.span.stop es k -
          String.utf8Len gap - String.utf8Len e.replacement.toList = moved e.span.stop es k by omega,
        hrec]
      simp

/-- The cells of a replacement stand in the place of its span. -/
theorem Spliced.getElem?_replacement {es : List Edit} {l old new : List Char} {i : Nat}
    (h : Spliced i es old new) (hi : i = String.utf8Len l)
    (hneutral : ∀ e ∈ es, Neutral (l ++ old) e) (hproper : ∀ e ∈ es, e.Proper) {e : Edit}
    (he : e ∈ es) {k : Nat} (hk : k < e.replacement.utf8ByteSize) :
    (classify (Mode.code.after l) new)[moved i es e.span.start + k]? =
      (classify .code e.replacement.toList)[k]? := by
  induction h generalizing l with
  | nil => simp at he
  | @cons i f es gap word rest rest' hstart hstop hrest ih =>
    rw [List.forall_mem_cons] at hneutral hproper
    obtain ⟨hspan, -⟩ := hproper.1
    obtain ⟨hmode, hcells⟩ := classify_cons (n := rest') hneutral.1 (by omega) hstop
    rw [hcells, moved]
    rcases List.mem_cons.1 he with rfl | he
    · rw [utf8ByteSize_eq] at hk
      rw [if_pos (Nat.le_refl _), List.getElem?_append_right (by rw [length_classify]; omega),
        length_classify, List.getElem?_append_left (by rw [length_classify]; omega)]
      congr 1
      omega
    · have hlen : f.span.stop = String.utf8Len (l ++ gap ++ word) := by
        rw [String.utf8Len_append, String.utf8Len_append]
        omega
      have hle := hrest.le_start e he
      have hrec := ih (l := l ++ gap ++ word) hlen
        (fun e' he' => by simpa using hneutral.2 e' he') hproper.2 he
      rw [hmode] at hrec
      rw [if_neg (by omega), utf8ByteSize_eq f,
        List.getElem?_append_right (by rw [length_classify]; omega), length_classify,
        List.getElem?_append_right (by rw [length_classify]; omega), length_classify, ← hrec]
      congr 1
      omega

end Edit

end MethodBrowser
