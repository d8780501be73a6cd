import MethodBrowser.Source.Basic

/-!
# Words and tokens

Reads the tokens of a method at given offsets: words, binary operators, keywords, the assignment
sign and the period that ends a statement. Every reader takes the offset where the token must
start and a limit that it must not cross.

A word is bounded on its left: no identifier character stands before it. So a word is found at
one offset only, and listing all words of a span is a matter of trying each offset.
-/

namespace MethodBrowser.Source

variable (src : Source)

/-- The most characters a binary selector has. -/
def maxBinarySize : Nat := 3

/-- No identifier character stands just before `i`. -/
def isWordStart (i : Nat) : Bool := i == 0 || !src.byteIs Byte.isIdent (i - 1)

/-- No identifier character stands at `i`. -/
def isWordEnd (i : Nat) : Bool := !src.byteIs Byte.isIdent i

/-- The end of the identifier characters that start at `i`, cut off at `limit`. -/
def identEnd (i limit : Nat) : Nat := src.runEnd (fun c => Byte.isIdent c.byte) i limit

/-- The end of the white space that starts at `i`, cut off at `limit`. -/
def skipGap (i limit : Nat) : Nat := src.runEnd Cell.isGap i limit

/-- The start of the white space that ends at `i`, cut off at `floor`. -/
def skipGapBack (i floor : Nat) : Nat := src.runStart Cell.isGap i floor

theorem le_identEnd (i limit : Nat) : i ≤ src.identEnd i limit := src.le_runEnd _ i limit

theorem le_skipGap (i limit : Nat) : i ≤ src.skipGap i limit := src.le_runEnd _ i limit

/-! ## Words -/

/-- The word of code that starts at `i`. -/
def wordAt? (i limit : Nat) : Option Span :=
  if i < limit && src.holds (fun c => c.isCode && Byte.isIdentStart c.byte) i
      && src.isWordStart i then
    let word : Span := ⟨i, src.identEnd (i + 1) limit⟩
    if src.isCodeSpan word then some word else none
  else none

theorem wordAt?_bounds {i limit : Nat} {s : Span} (h : src.wordAt? i limit = some s) :
    s.start = i ∧ i < s.stop := by
  have := src.le_identEnd (i + 1) limit
  simp only [wordAt?] at h
  grind

/-- All words that start in a span, cut off at its end. -/
def words (region : Span) : List Span := region.offsets.filterMap (src.wordAt? · region.stop)

/-! ## Punctuation -/

/-- An assignment sign starts at `i`. -/
def isAssignment (i : Nat) : Bool := src.codeAt i ':' && src.codeAt (i + 1) '='

/-- A colon at `i` that is not part of an assignment sign. -/
def isKeywordColon (i : Nat) : Bool := src.codeAt i ':' && !src.isAssignment i

/-- The period at `i` ends a statement: it is not the point of a decimal number. -/
def isTerminator (i : Nat) : Bool :=
  src.codeAt i '.'
    && !(Nat.blt 0 i && src.byteIs Byte.isDigit (i - 1) && src.byteIs Byte.isDigit (i + 1))

/-! ## Operators and keywords -/

/-- The run of binary characters that starts at `i`, unless it is too long for a selector. -/
def binaryAt? (i limit : Nat) : Option Span :=
  let stop := src.runEnd (fun c => c.isCode && Byte.isBinary c.byte) i limit
  if i < stop && Nat.ble (stop - i) maxBinarySize then some ⟨i, stop⟩ else none

/-- The keyword that starts at `i`: a word and the colon right after it. A word after `#` or
another colon belongs to a symbol and is no keyword, nor is the target of an assignment. -/
def keywordAt? (i limit : Nat) : Option Span :=
  match src.wordAt? i limit with
  | none => none
  | some word =>
    if word.stop < limit && src.isKeywordColon word.stop
        && !(Nat.blt 0 i && src.byteIs (fun b => b == '#'.toUInt8 || b == ':'.toUInt8) (i - 1)) then
      some ⟨i, word.stop + 1⟩
    else none

theorem keywordAt?_bounds {i limit : Nat} {s : Span} (h : src.keywordAt? i limit = some s) :
    s.start = i ∧ i < s.stop := by
  cases hw : src.wordAt? i limit with
  | none => simp [keywordAt?, hw] at h
  | some word =>
    have := src.wordAt?_bounds hw
    simp only [keywordAt?, hw] at h
    grind

/-- All keywords that start in a span, in order. -/
def keywords (region : Span) : List Span :=
  region.offsets.filterMap (src.keywordAt? · region.stop)

/-! ## Identifiers -/

/-- The word is spelled `name` and stands for a variable: it is neither a keyword nor a symbol. -/
def isVariable (name : String) (word : Span) : Bool :=
  src.slice word == name && !src.isKeywordColon word.stop
    && !(Nat.blt 0 word.start && src.byteIs (· == '#'.toUInt8) (word.start - 1))

/-- Every place in a span where the variable `name` is mentioned. -/
def occurrences (name : String) (region : Span) : List Span :=
  (src.words region).filter (src.isVariable name)

end MethodBrowser.Source
