import MethodBrowser.Source.Token

/-!
# The opening of a method body

The first line of a method is its header. The body may open with pragmas such as
`<primitive: 60>` and with a declaration of temporaries between bars, and the pragmas may stand
on either side of the declaration. White space, comments and literals before and between them
are passed over. Statements begin where this preamble ends.
-/

namespace MethodBrowser

/-- The header line of a text, without the carriage returns at its end, and the offset where the
body starts. A text of one line is all header and keeps its carriage returns. -/
def splitHeader (text : String) : String × Nat :=
  let line := text.toList.takeWhile (· ≠ '\n')
  if line.length = text.toList.length then (text, text.utf8ByteSize)
  else
    (String.ofList (line.reverse.dropWhile (· = '\r')).reverse,
      (String.ofList line).utf8ByteSize + 1)

/-- The pragmas and temporaries that open a body. -/
structure Preamble where
  pragmas : List Span
  /-- The declaration of temporaries, bars included. -/
  temporaries : Option Span
  /-- Where statements may begin. -/
  stop : Nat
  deriving DecidableEq

namespace Source

variable (src : Source)

/-- The end of the white space, comments and literals that start at `i`. -/
def skipTrivia (i : Nat) : Nat :=
  src.runEnd (fun c => !c.isCode || Byte.isBlank c.byte) i src.size

theorem le_skipTrivia (i : Nat) : i ≤ src.skipTrivia i := src.le_runEnd _ i src.size

/-- The pragma that starts at `i`: an identifier right after `<`, up to the next `>`. -/
def pragmaAt? (i : Nat) : Option Span :=
  if src.codeAt i '<' && src.byteIs Byte.isIdentStart (i + 1) then
    (src.find? (·.isCodeChar '>') (i + 1) src.size).map fun close => ⟨i, close + 1⟩
  else none

theorem pragmaAt?_bounds {i : Nat} {s : Span} (h : src.pragmaAt? i = some s) :
    s.start = i ∧ i < s.stop ∧ s.stop ≤ src.size := by
  unfold pragmaAt? at h
  split at h
  · obtain ⟨close, hc, rfl⟩ := Option.map_eq_some_iff.1 h
    have := src.find?_bounds hc
    exact ⟨rfl, by simp only; omega, by simp only; omega⟩
  · simp at h

/-- The pragmas in a row from `i` on, and the offset of the code that follows them. -/
def pragmasFrom (i : Nat) : List Span × Nat :=
  let j := src.skipTrivia i
  match _found : src.pragmaAt? j with
  | none => ([], j)
  | some pragma =>
    let rest := pragmasFrom pragma.stop
    (pragma :: rest.1, rest.2)
termination_by src.size - i
decreasing_by
  have := src.le_skipTrivia i
  have := src.pragmaAt?_bounds _found
  omega

/-- The declaration of temporaries at `i`: a bar and all up to the next one. -/
def temporariesAt? (i : Nat) : Option Span :=
  if src.codeAt i '|' then
    (src.find? (·.isCodeChar '|') (i + 1) src.size).map fun close => ⟨i, close + 1⟩
  else none

/-- The preamble of a body that starts at `bodyStart`. Without pragmas and temporaries it is
empty. -/
def preamble (bodyStart : Nat) : Preamble :=
  let (leading, next) := src.pragmasFrom bodyStart
  match src.temporariesAt? next with
  | none => ⟨leading, none, (leading.getLast?.map (·.stop)).getD bodyStart⟩
  | some block =>
    let (trailing, _) := src.pragmasFrom block.stop
    ⟨leading ++ trailing, some block, (trailing.getLast?.map (·.stop)).getD block.stop⟩

/-- The offset where the body of the method starts. -/
def bodyStart : Nat := (splitHeader src.text).2

/-- The part of the method in which statements and sends are looked for. -/
def statementRegion : Span := ⟨(src.preamble src.bodyStart).stop, src.size⟩

/-- The names between the bars of a declaration. -/
def declaredNames (block : Span) : List String :=
  (src.words ⟨block.start + 1, block.stop - 1⟩).map src.slice

/-- The temporaries that the method declares. -/
def temporaries : List String :=
  match (src.preamble src.bodyStart).temporaries with
  | some block => src.declaredNames block
  | none => []

end Source

end MethodBrowser
