import MethodBrowser.Source.Basic

/-!
# Lines and columns

Positions are counted from one. A column counts characters while an offset counts bytes, so all
bytes of a character share its position.
-/

namespace MethodBrowser

/-- A place in a text as people count it. -/
structure Position where
  line : Nat
  column : Nat
  deriving DecidableEq, Inhabited

namespace Position

/-- The position after a character at `p`. -/
def next (p : Position) (c : Char) : Position :=
  if c = '\n' then ⟨p.line + 1, 1⟩ else ⟨p.line, p.column + 1⟩

/-- The position of each byte of a text that starts at `p`, and of the end of the text. -/
def ofChars (p : Position) : List Char → List Position
  | [] => [p]
  | c :: cs => List.replicate c.utf8Size p ++ ofChars (p.next c) cs

end Position

/-- The positions of all bytes of a text. -/
structure PositionIndex where
  entries : Array Position

namespace PositionIndex

def ofText (text : String) : PositionIndex := ⟨(Position.ofChars ⟨1, 1⟩ text.toList).toArray⟩

/-- The position at an offset; past the end, the position of the end. -/
def get (index : PositionIndex) (offset : Nat) : Position :=
  index.entries[offset]?.getD (index.entries.back?.getD ⟨1, 1⟩)

/-- The positions of the first and the last character of a span. An empty span has its start
twice. -/
def bounds (index : PositionIndex) (s : Span) : Position × Position :=
  (index.get s.start, if s.isEmpty then index.get s.start else index.get (s.stop - 1))

end PositionIndex

end MethodBrowser
