import MethodBrowser.Proofs.Send.Starts

/-!
# Renaming unary sends

The edits that spell the sends of a unary selector anew are a respelling of words
(`Source.respells_simpleEdits`), and all of them are carried out (`Source.spliced_simpleEdits`). A
word that is respelled may have been a receiver, too, so what is known of receivers may change; the
selectors do not, apart from the renamed one (`Respelling.selector_of_moved`).
-/

namespace MethodBrowser

namespace Source

open Edit

variable {src : Source} {old new : String}

/-- A send whose selector is an identifier is unary. -/
theorem isWord_of_mem_simpleSends {send : Send} (h : send ∈ src.simpleSends src.sendRegion)
    (hunary : isIdentifier send.selector.toList = true) :
    send.kind = .unary ∧ src.IsWord send.span.start send.span.size ∧
      send.span.start + send.span.size = send.span.stop := by
  obtain ⟨r, j, -, hsend⟩ := mem_simpleSends h
  rcases sendAfter?_spelling hsend with ⟨-, hword | ⟨hkind, -⟩⟩
  · exact hword
  · rcases simpleSend_selector h with ⟨hkind', -⟩ | ⟨-, hbinary⟩
    · simp [hkind] at hkind'
    · simp [not_isIdentifier_of_isBinaryChar hbinary] at hunary

theorem bodyStart_le_simpleSend {send : Send} (h : send ∈ src.simpleSends src.sendRegion) :
    src.bodyStart ≤ send.span.start := by
  obtain ⟨r, j, hj, hsend⟩ := mem_simpleSends h
  have hbody := src.bodyStart_le_region
  have hgap := src.le_skipGap j src.size
  rw [start_of_sendAfter? hsend]
  omega

/-- The unary and binary sends among all sends. -/
theorem filter_sends_perm (src : Source) :
    (src.sends.filter (·.kind != .keyword)).Perm (src.simpleSends src.sendRegion) := by
  have hsorted : src.sends.Perm
      (src.keywordSends src.sendRegion ++ src.simpleSends src.sendRegion) :=
    List.mergeSort_perm ..
  have hkeyword : (src.keywordSends src.sendRegion).filter (·.kind != .keyword) = [] := by
    rw [List.filter_eq_nil_iff]
    intro send hsend
    obtain ⟨run, -, rfl⟩ := List.mem_map.1 (List.mem_filter.1 hsend).1
    simp [KeywordRun.toSend]
  have hsimple : (src.simpleSends src.sendRegion).filter (·.kind != .keyword) =
      src.simpleSends src.sendRegion := by
    rw [List.filter_eq_self]
    intro send hsend
    rcases simpleSend_selector hsend with ⟨hkind, -⟩ | ⟨hkind, -⟩
    · simp [hkind]
    · simp [hkind]
  have hfilter := hsorted.filter (·.kind != .keyword)
  rwa [List.filter_append, hkeyword, hsimple, List.nil_append] at hfilter

/-- Each edit is that of a unary or binary send. -/
theorem simpleEdits_perm (src : Source) (old new : String) :
    (src.simpleEdits old new).Perm
      (((src.simpleSends src.sendRegion).filter (·.selector == old)).map
        fun send => ⟨send.span, new⟩) := by
  rw [simpleEdits, ← List.filter_filter]
  exact (src.filter_sends_perm.filter _).map _

theorem mem_simpleEdits {e : Edit} :
    e ∈ src.simpleEdits old new ↔
      ∃ send ∈ src.simpleSends src.sendRegion, send.selector = old ∧ e = ⟨send.span, new⟩ := by
  rw [(src.simpleEdits_perm old new).mem_iff, List.mem_map]
  constructor
  · rintro ⟨send, hsend, rfl⟩
    obtain ⟨hmem, hselector⟩ := List.mem_filter.1 hsend
    exact ⟨send, hmem, by simpa using hselector, rfl⟩
  · rintro ⟨send, hmem, hselector, rfl⟩
    exact ⟨send, List.mem_filter.2 ⟨hmem, by simpa using hselector⟩, rfl⟩

/-- The edits spell words of the body anew. -/
theorem respells_simpleEdits (src : Source) (hold : Selector.kind? old = some .unary)
    (hnew : Selector.kind? new = some .unary) :
    ∀ e ∈ src.simpleEdits old new, e.Respells src False := by
  intro e he
  obtain ⟨send, hsend, rfl, rfl⟩ := mem_simpleEdits.1 he
  obtain ⟨-, hword, -⟩ := isWord_of_mem_simpleSends hsend (Selector.kind?_eq_unary_iff.1 hold)
  exact ⟨bodyStart_le_simpleSend hsend, hword, Selector.kind?_eq_unary_iff.1 hnew, False.elim⟩

/-- A word ends before the next one starts. -/
theorem IsWord.stop_le {i j n m : Nat} (h : src.IsWord i n) (h' : src.IsWord j m) (hlt : i < j) :
    i + n ≤ j := by
  by_contra hinside
  have hinner := h.inner (k := j) (by rw [Span.mem_offsets]; constructor <;> simp only <;> omega)
  have hident : src.byteIs Byte.isIdent (j - 1) = true :=
    holds_of_imp (fun _ => Cell.isIdent_of_isWordChar) hinner.before
  have hleft := h'.left
  simp only [isWordStart, hident, Bool.not_true, Bool.or_false, beq_iff_eq] at hleft
  omega

/-- All edits are carried out. -/
theorem spliced_simpleEdits {text : String} (hold : Selector.kind? old = some .unary)
    (hnew : Selector.kind? new = some .unary) :
    Spliced 0 (sorted ((ofText text).simpleEdits old new)) text.toList
      (renameSends text old new).source.toList := by
  have hes := respells_simpleEdits (ofText text) hold hnew
  have hne : ((ofText text).simpleEdits old new).Pairwise
      fun a b => a.span.start ≠ b.span.start := by
    rw [((ofText text).simpleEdits_perm old new).pairwise_iff fun h => h.symm, List.pairwise_map]
    exact ((ofText text).pairwise_simpleSends _).filter _
  have hapart := apart_sorted hne fun a ha b hb hlt => by
    have hstop := (hes a ha).word.stop_le (hes b hb).word hlt
    rwa [(hes a ha).stop_eq] at hstop
  have hspliced := exists_applyAll text (fun e he => (hes e he).neutral.hasSpan) hapart
  have hkind : (Selector.kind? old == some .keyword) = false := by rw [hold]; rfl
  simp only [renameSends, hkind, Bool.false_eq_true, if_false]
  exact hspliced

end Source

/-! ## The selectors of the new source -/

namespace Respelling

open Edit

variable {s t : Source} {ws : List Edit} {old new : String} {a b : Send}

/-- The body is edited by renaming the unary sends of `old`. -/
def RenamesUnary (s : Source) (ws : List Edit) (old new : String) : Prop :=
  ∀ w : Edit, s.bodyStart ≤ w.span.start → (w ∈ ws ↔ w ∈ s.simpleEdits old new)

/-- A unary send of another selector is kept. -/
theorem kept_of_ne (R : Respelling s t ws False) (hws : RenamesUnary s ws old new)
    (ha : a ∈ s.simpleSends s.sendRegion) (hword : s.IsWord a.span.start a.span.size)
    (hne : a.selector ≠ old) (hmark : R.alignment.mark a.span.start) :
    R.alignment.Kept a.span.start := by
  have hbody := Source.bodyStart_le_simpleSend ha
  refine R.kept hmark (Source.lt_size_of_holds hword.letter)
    (R.untouched_of_clear hbody hmark.2.2 fun w hw hresp heq => hne ?_)
  -- An edit that starts here is that of a send of `old`, and this is the same send.
  obtain ⟨send, hsend, hselector, rfl⟩ := Source.mem_simpleEdits.1 ((hws w hresp.body).1 hw)
  rw [Source.simpleSend_eq_of_start_eq ha hsend heq.symm, hselector]

/-- Corresponding sends have the same selector, but for the renamed one. -/
theorem selector_of_moved (R : Respelling s t ws False) (hold : Selector.kind? old = some .unary)
    (hnew : Selector.kind? new = some .unary) (hws : RenamesUnary s ws old new)
    (ha : a ∈ s.simpleSends s.sendRegion) (hb : b ∈ t.simpleSends t.sendRegion)
    (hab : R.alignment.Moved a b) :
    b.selector = if a.selector = old then new else a.selector := by
  obtain ⟨r, j, -, hsend⟩ := Source.mem_simpleSends ha
  obtain ⟨r', j', -, hsend'⟩ := Source.mem_simpleSends hb
  obtain ⟨hselector, hcases⟩ := Source.sendAfter?_spelling hsend
  rw [(Source.sendAfter?_spelling hsend').1, hab.span]
  rcases hcases with ⟨-, hword, hend⟩ | ⟨hkind, k, hbinary⟩
  · by_cases hrenamed : a.selector = old
    · rw [if_pos hrenamed]
      have he : (⟨a.span, new⟩ : Edit) ∈ s.simpleEdits old new :=
        Source.mem_simpleEdits.2 ⟨a, ha, hrenamed, rfl⟩
      have hresp := s.respells_simpleEdits hold hnew _ he
      exact R.slice_replacement ((hws _ hresp.body).2 he) hresp
    · rw [if_neg hrenamed, hselector]
      have hkept := R.kept_of_ne hws ha hword hrenamed hab.mark.1
      have hspell := R.alignment.slice_shift_of_isIdent hab.mark.1 hkept fun k hk =>
        Source.holds_of_imp (fun _ => Cell.isIdent_of_isWordChar) (hword.chars k hk)
      rw [hend] at hspell
      exact hspell.2
  · have hne : a.selector ≠ old := by
      rintro rfl
      have hunary := Source.isWord_of_mem_simpleSends ha (Selector.kind?_eq_unary_iff.1 hold)
      simp [hkind] at hunary
    have hstart : a.span.start = k := by
      simp only [Source.binaryAt?] at hbinary
      split at hbinary
      · rw [← Option.some.inj hbinary]
      · simp at hbinary
    rw [if_neg hne, hselector]
    exact R.alignment.slice_binary_shift (hstart ▸ hab.mark.1) hbinary

end Respelling

end MethodBrowser
