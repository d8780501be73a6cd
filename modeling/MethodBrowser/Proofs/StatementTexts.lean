import MethodBrowser.Proofs.Send.ExcerptSends
import MethodBrowser.Proofs.Source.Clauses

/-!
# What a statement says

The kind of a statement and the messages it sends are read from its text alone: the method around it
and its place there do not matter (`gists_of_body`). So methods that are put together from the same
statements say the same.
-/

namespace MethodBrowser

/-- A send without its place. -/
structure Message where
  selector : String
  kind : SelectorKind
  receiver : Receiver
  tokens : Nat
  deriving DecidableEq

def Send.message (send : Send) : Message := ⟨send.selector, send.kind, send.receiver, send.tokens⟩

/-- A statement without its place. -/
structure Gist where
  text : String
  kind : StatementKind
  messages : List Message
  deriving DecidableEq

def OutlineStatement.gist (st : OutlineStatement) : Gist :=
  ⟨st.text, st.kind, st.sends.map (·.message)⟩

/-- What the statements of a method say. -/
def gists (text : String) : List Gist := (Outline.ofText text).statements.map (·.gist)

/-- What a statement says if it is read by itself. -/
def Gist.ofChars (cs : List Char) : Gist :=
  let src := Source.ofChars cs
  ⟨String.ofList cs, src.statementKind src.span, (src.sendsIn (src.regionFrom 0)).map (·.message)⟩

theorem Excerpt.statementKind_shift {w s : Source} (E : Excerpt w s) :
    s.statementKind ⟨E.offset, E.offset + w.size⟩ = w.statementKind w.span := by
  have hcaret : s.codeAt E.offset '^' = w.codeAt 0 '^' :=
    E.codeAt_shift (by decide) (by decide) (Nat.zero_le _)
  have hassign : (Span.offsets ⟨E.offset, E.offset + w.size⟩).any s.isAssignment =
      w.span.offsets.any w.isAssignment := by
    rw [show (⟨E.offset, E.offset + w.size⟩ : Span) = w.span.shift E.offset from rfl,
      Span.offsets_shift, List.any_map, Bool.eq_iff_iff, List.any_eq_true, List.any_eq_true]
    refine exists_congr fun k => and_congr_right fun hk => ?_
    rw [Span.mem_offsets] at hk
    rw [Function.comp_apply, E.isAssignment_shift hk.2]
  simp only [Source.statementKind, hcaret, hassign]
  rfl

theorem Source.IsPart.gist_eq {src : Source} {floor : Nat} {sp : Span} {w : List Char}
    (h : src.IsPart floor sp w) (hfloor : src.statementRegion.start = floor) (index : Nat) :
    (OutlineStatement.ofStatement src src.sends ⟨sp, src.statementKind sp⟩ index).gist =
      .ofChars w := by
  obtain ⟨E, rfl, rfl, hslice⟩ := h
  have hsends := E.sends_shift hfloor
  have hkind := E.statementKind_shift
  rw [size_ofChars] at hsends hkind
  simp only [OutlineStatement.ofStatement, OutlineStatement.gist, Gist.ofChars, hslice, hkind, hsends,
    List.map_map]
  rfl

/-! ## Bodies -/

/-- The body of the method is put together from clauses. They follow the text `l`, which ends where
statements may begin. -/
structure Source.Body (src : Source) (l : List Char) (cs : List Clause) : Prop where
  prose : Prose cs
  cut : src.Cut l (joined cs)
  start : src.statementRegion.start = String.utf8Len l
  bound : String.utf8Len l = 0 ∨ src.byteIs Byte.isBoundary (String.utf8Len l - 1) = true

namespace Source.Body

variable {src : Source} {l : List Char} {cs : List Clause} (h : src.Body l cs)
include h

theorem statements_eq : src.statements =
    (spansFrom (String.utf8Len l) cs).map fun sp => ⟨sp, src.statementKind sp⟩ := by
  obtain ⟨hlayout, -⟩ := h.prose.layout (Nat.le_refl _) (by omega) h.bound h.cut
  change src.statementsIn ⟨src.statementRegion.start, src.size⟩ = _
  rw [h.start]
  exact hlayout.statementsIn_eq (Nat.le_refl _)

theorem spans_eq : src.statements.map (·.span) = spansFrom (String.utf8Len l) cs := by
  rw [h.statements_eq, List.map_map]
  exact List.map_id _

theorem parts : List.Forall₂ (src.IsPart (String.utf8Len l)) (src.statements.map (·.span)) (texts cs) :=
  h.spans_eq ▸ (h.prose.layout (Nat.le_refl _) (by omega) h.bound h.cut).2

theorem slices_eq : src.statements.map (fun st => src.slice st.span) = (texts cs).map String.ofList := by
  have hparts := h.parts
  rw [List.forall₂_map_left_iff] at hparts
  rw [← List.forall₂_eq_eq_eq, List.forall₂_map_left_iff, List.forall₂_map_right_iff]
  exact hparts.imp fun st w ⟨_, _, _, hslice⟩ => hslice

end Source.Body

theorem gists_eq (text : String) :
    gists text = (Source.ofText text).statements.map fun st =>
      (OutlineStatement.ofStatement (.ofText text) (Source.ofText text).sends st 0).gist := by
  refine List.ext_getElem (by simp [gists, Outline.ofText]) fun i h₁ h₂ => ?_
  simp [gists, Outline.ofText, OutlineStatement.ofStatement, OutlineStatement.gist]

/-- A method says what the statements say of which its body is put together. -/
theorem gists_of_body {text : String} {l : List Char} {cs : List Clause}
    (h : (Source.ofText text).Body l cs) : gists text = (texts cs).map .ofChars := by
  have hparts := h.parts
  rw [h.spans_eq] at hparts
  rw [gists_eq, h.statements_eq, List.map_map, ← List.forall₂_eq_eq_eq, List.forall₂_map_left_iff,
    List.forall₂_map_right_iff]
  exact hparts.imp fun sp w hpart => hpart.gist_eq h.start 0

end MethodBrowser
