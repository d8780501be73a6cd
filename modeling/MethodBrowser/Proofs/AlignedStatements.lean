import Mathlib.Data.List.Basic
import MethodBrowser.Proofs.Source.AlignedRegion
import MethodBrowser.Statement

/-!
# Statements of aligned sources

When the respelled words leave the periods alone, aligned sources are cut into statements at
corresponding places, and each statement has the kind of its counterpart
(`Alignment.statements_shift`). Without that they are not: `x1.5` reads differently when `x1` is
spelled `x`.
-/

namespace MethodBrowser

namespace Source

variable {src : Source} {i : Nat}

/-- No period that ends a statement stands in a word. -/
theorem pieces_append {stop start : Nat} {n : Nesting} {is js : List Nat}
    (h : ∀ k ∈ is, src.holds Cell.isWordChar k = true) :
    src.pieces stop start n (is ++ js) = src.pieces stop start n js := by
  induction is with
  | nil => rfl
  | cons i is ih =>
    rw [List.forall_mem_cons] at h
    have hperiod : src.isTerminator i = false := by
      simp only [isTerminator]
      rw [codeAt_of_isWordChar (by decide) h.1]
      rfl
    simp only [List.cons_append, pieces, nest_of_isWordChar h.1, hperiod, Bool.and_false,
      Bool.false_eq_true, if_false]
    exact ih h.2

theorem any_eq_filterMap (p : Nat → Bool) (is : List Nat) :
    is.any p = !(is.filterMap fun i => if p i then some () else none).isEmpty := by
  induction is with
  | nil => rfl
  | cons i is ih => cases h : p i <;> simp [h, ih]

theorem Inner.isAssignment (h : src.Inner i) : src.isAssignment i = false := by
  rw [Source.isAssignment, codeAt_of_isWordChar (by decide) h.here]
  rfl

end Source

namespace Alignment

variable {s t : Source} (A : Alignment s t) {i : Nat} {sp : Span}

theorem trim?_shift (h : A.MarkSpan sp) :
    t.trim? (A.shiftSpan sp) = (s.trim? sp).map A.shiftSpan ∧
      ∀ trimmed ∈ s.trim? sp, A.MarkSpan trimmed := by
  obtain ⟨hstart, hstart'⟩ := A.runEnd_shift Cell.uniform_not_isSignificant h.1 h.2
  obtain ⟨hstop, hstop'⟩ := A.runStart_shift (p := fun c => !c.isSignificant)
    (fun c hc => by simp [Cell.isSignificant_of_isWordChar hc]) h.2 hstart
  simp only [Source.trim?, shiftSpan, hstart', hstop', A.shift_lt_iff hstart h.2]
  split
  · exact ⟨rfl, by simpa using ⟨hstart, hstop⟩⟩
  · simp

theorem any_isAssignment_shift (h : A.MarkSpan sp) :
    (A.shiftSpan sp).offsets.any t.isAssignment = sp.offsets.any s.isAssignment := by
  have hfound := A.filterMap_offsets (φ := id)
    (f := fun i => if s.isAssignment i then some () else none)
    (g := fun i => if t.isAssignment i then some () else none)
    (fun i hi _ => by simp only [A.isAssignment_shift hi, Option.map_id, id_eq])
    (fun k hk => by simp [hk.isAssignment]) (fun k hk => by simp [hk.isAssignment]) h.1 h.2
  rw [List.map_id] at hfound
  rw [Source.any_eq_filterMap, Source.any_eq_filterMap]
  exact congrArg (fun found => !found.isEmpty) hfound

theorem statementKind_shift (h : A.MarkSpan sp) :
    t.statementKind (A.shiftSpan sp) = s.statementKind sp := by
  simp only [Source.statementKind, A.any_isAssignment_shift h]
  rw [show (A.shiftSpan sp).start = A.shift sp.start from rfl, A.codeAt_shift (by decide) h.1]

/-- The counterpart of a statement. -/
def shiftStatement (st : Statement) : Statement := { st with span := A.shiftSpan st.span }

theorem statementIn?_shift (h : A.MarkSpan sp) :
    t.statementIn? (A.shiftSpan sp) = (s.statementIn? sp).map A.shiftStatement := by
  obtain ⟨htrim, hmarks⟩ := A.trim?_shift h
  rw [Source.statementIn?, Source.statementIn?, htrim]
  cases htrimmed : s.trim? sp with
  | none => rfl
  | some trimmed =>
    simp only [Option.map_some, A.statementKind_shift (hmarks trimmed htrimmed)]
    rfl

theorem pieces_shift (hsteady : A.Steady) {stop start : Nat} (n : Nesting) (hstop : A.mark stop)
    (hstart : A.mark start) (hi : A.mark i) (hle : i ≤ stop) :
    t.pieces (A.shift stop) (A.shift start) n (Span.offsets ⟨A.shift i, A.shift stop⟩) =
        (s.pieces stop start n (Span.offsets ⟨i, stop⟩)).map A.shiftSpan ∧
      ∀ piece ∈ s.pieces stop start n (Span.offsets ⟨i, stop⟩), A.MarkSpan piece := by
  refine A.induct (motive := fun i => ∀ n start, A.mark start →
    t.pieces (A.shift stop) (A.shift start) n (Span.offsets ⟨A.shift i, A.shift stop⟩) =
        (s.pieces stop start n (Span.offsets ⟨i, stop⟩)).map A.shiftSpan ∧
      ∀ piece ∈ s.pieces stop start n (Span.offsets ⟨i, stop⟩), A.MarkSpan piece)
    hstop ?stop ?kept ?word hi hle n start hstart
  case stop =>
    intro n start hstart
    rw [Span.offsets_nil (Nat.le_refl _), Span.offsets_nil (Nat.le_refl _)]
    exact ⟨rfl, by simpa [Source.pieces] using ⟨hstart, hstop⟩⟩
  case kept =>
    intro i hi hlt hk ih n start hstart
    rw [Span.offsets_cons hlt, Span.offsets_cons ((A.shift_lt_iff hi hstop).2 hlt),
      ← hk.shift_next]
    simp only [Source.pieces, A.nest_shift hk, A.isTerminator_shift hsteady hi, ← hk.shift_next]
    by_cases hend : ((s.nest n i).isTopLevel && s.isTerminator i) = true
    · rw [if_pos hend, if_pos hend]
      obtain ⟨hrest, hmarks⟩ := ih (s.nest n i) (i + 1) hk.next
      rw [hrest]
      exact ⟨rfl, List.forall_mem_cons.2 ⟨⟨hstart, hi⟩, hmarks⟩⟩
    · rw [if_neg hend, if_neg hend]
      exact ih _ start hstart
  case word =>
    intro i k m hi hk hw ih n start hstart
    obtain ⟨h₁, h₂⟩ := A.offsets_word hstop hk hw
    have hpos := hw.old.pos
    have hpos' := hw.new.pos
    rw [← Span.offsets_cons (show i < i + k by omega)] at h₁
    rw [← Span.offsets_cons (show A.shift i < A.shift i + m by omega)] at h₂
    rw [h₁, h₂, Source.pieces_append (List.all_eq_true.1 (hw.old.all_holds fun _ => id)),
      Source.pieces_append (List.all_eq_true.1 (hw.new.all_holds fun _ => id))]
    exact ih n start hstart

/-- The statements of aligned sources stand at corresponding places and have the same kinds. -/
theorem statements_shift (hsteady : A.Steady) :
    t.statements = s.statements.map A.shiftStatement := by
  obtain ⟨hmark, hregion⟩ := A.statementRegion_shift
  obtain ⟨hpieces, hmarks⟩ :=
    A.pieces_shift hsteady .empty hmark.2 hmark.1 hmark.1 (A.le_size hmark.1)
  rw [Source.statements, Source.statements, hregion]
  simp only [Source.statementsIn, shiftSpan]
  rw [hpieces, List.filterMap_map, List.map_filterMap]
  exact List.filterMap_congr fun piece hpiece => A.statementIn?_shift (hmarks piece hpiece)

end Alignment

end MethodBrowser
