import MethodBrowser.Header
import MethodBrowser.Send.Detect

/-!
# Edits

A method is changed by splicing text into the spans that the scanners report, so every byte
outside these spans survives. Edits may be given in any order; one that overlaps an earlier one,
or reaches past the end of the text, is left out.
-/

namespace MethodBrowser

/-- Puts `replacement` in the place of a span. -/
structure Edit where
  span : Span
  replacement : String
  deriving DecidableEq

namespace Edit

/-- Copies `text` from the offset `i` on, with edits that are in order. -/
def splice (text : String) (i : Nat) : List Edit → String
  | [] => String.Pos.Raw.extract text ⟨i⟩ text.rawEndPos
  | e :: es =>
    if e.span.start < i || text.utf8ByteSize < e.span.stop then splice text i es
    else
      String.Pos.Raw.extract text ⟨i⟩ ⟨e.span.start⟩ ++ e.replacement ++ splice text e.span.stop es

/-- The text after all edits. -/
def applyAll (text : String) (edits : List Edit) : String :=
  splice text 0 (edits.mergeSort fun a b => a.span.le b.span)

end Edit

/-- A changed text and the number of sends that were changed in it. -/
structure Revised where
  source : String
  replacements : Nat
  deriving DecidableEq

/-! ## Renaming -/

namespace Source

variable (src : Source)

/-- The edits that spell each send of the keyword selector `old` as `new`, keyword by keyword. A
run counts only as a whole, so `at:` is not found inside `at:put:`. -/
def keywordEdits (old new : String) : List Edit :=
  ((src.keywordRuns src.sendRegion).filter (·.selector == old)).flatMap fun run =>
    (run.tokens.zip (Selector.tokens new)).map fun p => ⟨p.1, p.2⟩

/-- The edits that spell each unary or binary send of `old` as `new`. -/
def simpleEdits (old new : String) : List Edit :=
  (src.sends.filter fun send => send.selector == old && send.kind != .keyword).map
    fun send => ⟨send.span, new⟩

end Source

/-- Renames every send of `old` in a method. Both selectors have one shape and arity. -/
def renameSends (text old new : String) : Revised :=
  let src := Source.ofText text
  if Selector.kind? old == some .keyword then
    let edits := src.keywordEdits old new
    ⟨Edit.applyAll text edits, edits.length / (Selector.tokens old).length⟩
  else
    let edits := src.simpleEdits old new
    ⟨Edit.applyAll text edits, edits.length⟩

/-- Puts a new signature in the place of the old one. The rest of the header line and the body
stay as they are. -/
def replaceHeader (text : String) (old new : Header) : String :=
  new.render ++ String.Pos.Raw.extract text ⟨old.signatureEnd⟩ text.rawEndPos

/-- Renames a method: its signature, and every send of `old` in its body. Fails if the header
cannot be read. -/
def renameMethod? (text old new : String) : Option Revised :=
  (Header.ofText? text).map fun header =>
    let body := renameSends text old new
    let header' := Header.ofParts header.kind (Selector.tokens new) header.arguments
    ⟨replaceHeader body.source header header', body.replacements⟩

end MethodBrowser
