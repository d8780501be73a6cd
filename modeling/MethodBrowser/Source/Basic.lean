import MethodBrowser.Span

/-!
# Classified source text

A method arrives as plain text. Before anything else, each of its bytes is marked as code, as
part of a literal, or as part of a comment; every later scan looks at these marks, so a selector
that only occurs inside a literal or a comment is never taken for a send.

**Reading modes** (`Mode`). The text is read one character at a time. A quote opens a string, a
double quote opens a comment, and `$` makes the next character a literal whatever it is. A doubled
quote inside a string closes the string and opens it again, which marks the same bytes, so it
needs no rule of its own; `marks`, the loop over bytes, has one. The reading never fails: a string or
comment that is not closed runs to the end of the text.

**Cells** (`Cell`). Offsets count bytes, so a source keeps one cell per byte: the byte and its
mark. All bytes of a character carry the same mark.
-/

namespace MethodBrowser

/-- What a byte of a method is part of. -/
inductive Kind where
  | code
  /-- A string literal, quotes included, or the character after `$`. -/
  | string
  /-- A comment, double quotes included. -/
  | comment
  deriving DecidableEq

/-- What the reader of a text is in the middle of. -/
inductive Mode where
  | code
  | string
  | comment
  /-- A `$` has just been read. -/
  | character
  deriving DecidableEq

namespace Mode

/-- The mark of a character that is read in this mode. -/
def kind : Mode → Char → Kind
  | code, '\'' => .string
  | code, '"' => .comment
  | code, _ => .code
  | string, _ => .string
  | comment, _ => .comment
  | character, _ => .string

/-- The mode after a character. -/
def next : Mode → Char → Mode
  | code, '\'' => string
  | code, '"' => comment
  | code, '$' => character
  | code, _ => code
  | string, '\'' => code
  | string, _ => string
  | comment, '"' => code
  | comment, _ => comment
  | character, _ => code

end Mode

/-! ## Characters and bytes -/

/-- A letter or an underscore: what an identifier starts with. -/
def isIdentStart (c : Char) : Bool := c.isAlpha || c == '_'

/-- A letter, a digit or an underscore: what an identifier goes on with. -/
def isIdentRest (c : Char) : Bool := c.isAlphanum || c == '_'

/-- The characters of binary selectors. The bar is not one of them: in a method body it nearly
always delimits temporaries or block parameters. -/
def binaryChars : List Char :=
  ['+', '-', '*', '/', '\\', '<', '>', '=', '~', '@', '%', '&', '?', ',']

def isBinaryChar (c : Char) : Bool := binaryChars.contains c

/-- A letter or an underscore, then letters, digits and underscores. -/
def isIdentifier (cs : List Char) : Bool :=
  match cs with
  | [] => false
  | c :: rest => isIdentStart c && rest.all isIdentRest

namespace Byte

def isDigit (b : UInt8) : Bool := (Char.ofUInt8 b).isDigit

def isIdentStart (b : UInt8) : Bool := MethodBrowser.isIdentStart (Char.ofUInt8 b)

def isIdent (b : UInt8) : Bool := isIdentRest (Char.ofUInt8 b)

def isBinary (b : UInt8) : Bool := isBinaryChar (Char.ofUInt8 b)

/-- Space, tab, line feed, form feed or carriage return. -/
def isBlank (b : UInt8) : Bool :=
  b == ' '.toUInt8 || b == '\t'.toUInt8 || b == '\n'.toUInt8 || b == 0x0c || b == '\r'.toUInt8

end Byte

/-! ## Cells -/

/-- A byte of a text and its mark. -/
structure Cell where
  byte : UInt8
  kind : Kind
  deriving DecidableEq

namespace Cell

def isCode (c : Cell) : Bool := c.kind == .code

/-- The cell is code and holds the character `ch`. -/
def isCodeChar (c : Cell) (ch : Char) : Bool := c.isCode && c.byte == ch.toUInt8

/-- White space between tokens. -/
def isGap (c : Cell) : Bool := c.isCode && Byte.isBlank c.byte

/-- Code other than white space, or part of a literal. -/
def isSignificant (c : Cell) : Bool :=
  match c.kind with
  | .code => !Byte.isBlank c.byte
  | .string => true
  | .comment => false

end Cell

/-- The cells of a text whose reader is in mode `m`. -/
def classify : Mode → List Char → List Cell
  | _, [] => []
  | m, c :: cs => (String.utf8EncodeChar c).map (⟨·, m.kind c⟩) ++ classify (m.next c) cs

/-! ## Sources -/

/-- A text with its cells. -/
structure Source where
  text : String
  cells : Array Cell
  cells_eq : cells.toList = classify .code text.toList

namespace Source

def ofText (text : String) : Source :=
  ⟨text, (classify .code text.toList).toArray, rfl⟩

variable (src : Source)

/-- The length of the text in bytes. -/
def size : Nat := src.cells.size

/-- The span of the whole text. -/
def span : Span := ⟨0, src.size⟩

/-- There is a cell at `i` and it satisfies `p`. -/
def holds (p : Cell → Bool) (i : Nat) : Bool := src.cells[i]?.any p

def byteIs (p : UInt8 → Bool) (i : Nat) : Bool := src.holds (fun c => p c.byte) i

def kind? (i : Nat) : Option Kind := src.cells[i]?.map (·.kind)

def isCode (i : Nat) : Bool := src.holds Cell.isCode i

/-- The byte at `i` is code and holds the character `ch`. -/
def codeAt (i : Nat) (ch : Char) : Bool := src.holds (·.isCodeChar ch) i

def isSignificant (i : Nat) : Bool := src.holds Cell.isSignificant i

/-- Every byte of `s` is a code byte of the text. -/
def isCodeSpan (s : Span) : Bool := Nat.ble s.stop src.size && s.offsets.all src.isCode

/-- The text of a span. -/
def slice (s : Span) : String := String.Pos.Raw.extract src.text ⟨s.start⟩ ⟨s.stop⟩

/-! ## Runs of cells -/

/-- The end of the run of cells satisfying `p` that starts at `i`, cut off at `limit`. -/
def runEnd (p : Cell → Bool) (i limit : Nat) : Nat :=
  if i < limit then
    if src.holds p i then runEnd p (i + 1) limit else i
  else i
termination_by limit - i

/-- The start of the run of cells satisfying `p` that ends at `i`, cut off at `floor`. -/
def runStart (p : Cell → Bool) (i floor : Nat) : Nat :=
  if floor < i then
    if src.holds p (i - 1) then runStart p (i - 1) floor else i
  else i
termination_by i

/-- The first offset from `i` on, below `limit`, whose cell satisfies `p`. -/
def find? (p : Cell → Bool) (i limit : Nat) : Option Nat :=
  let j := src.runEnd (fun c => !p c) i limit
  if j < limit && src.holds p j then some j else none

theorem le_runEnd (p : Cell → Bool) (i limit : Nat) : i ≤ src.runEnd p i limit := by
  fun_induction runEnd src p i limit <;> omega

theorem runStart_le (p : Cell → Bool) (i floor : Nat) : src.runStart p i floor ≤ i := by
  fun_induction runStart src p i floor <;> omega

theorem find?_bounds {p : Cell → Bool} {i limit j : Nat} (h : src.find? p i limit = some j) :
    i ≤ j ∧ j < limit := by
  have := src.le_runEnd (fun c => !p c) i limit
  simp only [find?] at h
  grind

end Source

end MethodBrowser
