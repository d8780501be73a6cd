import MethodBrowser.Source.Token
import MethodBrowser.Source.Nesting

/-!
# Code that holds no sends

Two constructs are code and still contain no message sends: literal arrays such as
`#(size at: 3)`, whose words are symbols, and the temporaries of a block such as
`[:each | | sum | …]`, whose bars enclose names.
-/

namespace MethodBrowser.Source

variable (src : Source)

/-! ## Literal arrays -/

/-- The end of a group, given the counters before `i`: just past the byte that closes the last
open group or closes one that was never opened. A group that is not closed ends at `stop`. -/
def groupEnd (n : Nesting) (i stop : Nat) : Nat :=
  if i < stop then
    match src.codeByte? i with
    | none => groupEnd n (i + 1) stop
    | some b =>
      match n.step? b with
      | none => i + 1
      | some n' => if n'.isTopLevel then i + 1 else groupEnd n' (i + 1) stop
  else stop
termination_by stop - i

theorem lt_groupEnd (n : Nesting) {i stop : Nat} (h : i < stop) : i < src.groupEnd n i stop := by
  fun_induction groupEnd src n i stop <;> grind [groupEnd]

/-- A literal array opens at `i`. -/
def opensArray (i : Nat) : Bool :=
  src.codeAt i '#' && (src.codeAt (i + 1) '(' || src.codeAt (i + 1) '[')

/-- The outermost literal arrays between `i` and `stop`. -/
def literalArraysFrom (i stop : Nat) : List Span :=
  if _h : i + 1 < stop then
    if src.opensArray i then
      ⟨i, src.groupEnd .empty (i + 1) stop⟩ ::
        literalArraysFrom (src.groupEnd .empty (i + 1) stop) stop
    else literalArraysFrom (i + 1) stop
  else []
termination_by stop - i
decreasing_by
  · have := src.lt_groupEnd .empty _h
    omega
  · omega

/-- The outermost literal arrays of a region. -/
def literalArrays (region : Span) : List Span := src.literalArraysFrom region.start region.stop

/-! ## Block temporaries -/

/-- The end of the block parameters, such as `:x :y`, that start at `i`. -/
def skipParameters (i stop : Nat) : Nat :=
  if _h : i < stop && src.codeAt i ':' then
    if _h' : src.identEnd (i + 1) stop = i + 1 then i
    else skipParameters (src.skipGap (src.identEnd (i + 1) stop) stop) stop
  else i
termination_by stop - i
decreasing_by
  have := src.le_identEnd (i + 1) stop
  have := src.le_skipGap (src.identEnd (i + 1) stop) stop
  grind

/-- Where a declaration of temporaries would start in the block that opens at `i`: after the
parameters and their bar, or right away if there are none. -/
def blockBodyAt? (i stop : Nat) : Option Nat :=
  let first := src.skipGap (i + 1) stop
  let after := src.skipParameters first stop
  if after = first then some first
  else if src.codeAt after '|' then some (src.skipGap (after + 1) stop)
  else none

/-- The temporaries of the block that opens at `i`, bars included. Between the bars only names
and white space may stand. -/
def blockTemporariesAt? (i stop : Nat) : Option Span :=
  if src.codeAt i '[' then
    match src.blockBodyAt? i stop with
    | none => none
    | some bar =>
      if bar < stop && src.codeAt bar '|' then
        match src.find? (·.isCodeChar '|') (bar + 1) stop with
        | none => none
        | some close =>
          let isName := fun c : Cell => c.isCode && (Byte.isIdent c.byte || Byte.isBlank c.byte)
          if (Span.offsets ⟨bar + 1, close⟩).all (src.holds isName) then some ⟨bar, close + 1⟩
          else none
      else none
  else none

/-- The temporaries of all blocks that open in a region. -/
def blockTemporaries (region : Span) : List Span :=
  region.offsets.filterMap (src.blockTemporariesAt? · region.stop)

end MethodBrowser.Source
