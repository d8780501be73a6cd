import MethodBrowser.Toml.Scalar

/-!
# Reading TOML

A document is read line by line: headers, keys with their values, and comments. A text that is no
TOML has no document; where it goes wrong is not told.

Repetitions are bounded by the length of what is left to read, since each round consumes a
character.
-/

namespace MethodBrowser.Toml

open Text (hexValue?)

/-- Reads something from the start of a text and gives what is left of it. -/
abbrev Reader (α : Type) := List Char → Option (α × List Char)

/-! ## Blanks, comments and line ends -/

def isBlank (c : Char) : Bool := c == ' ' || c == '\t'

def skipBlanks (cs : List Char) : List Char := cs.dropWhile isBlank

/-- Characters that may stand in strings and comments. -/
def isText (c : Char) : Bool := c == '\t' || (0x20 ≤ c.toNat && c.toNat != 0x7f)

/-- Passes over a line end, if there is one. -/
def lineEnd? : List Char → Option (List Char)
  | '\n' :: cs | '\r' :: '\n' :: cs => some cs
  | _ => none

/-- Passes over the rest of a line, in which only a comment may stand. -/
def finishLine (cs : List Char) : Option (List Char) :=
  let cs := match skipBlanks cs with
    | '#' :: cs => cs.dropWhile isText
    | cs => cs
  if cs.isEmpty then some [] else lineEnd? cs

/-- Passes over blanks, line ends and comments, the first of which may have been started. -/
def skipGaps : (inComment : Bool) → List Char → Option (List Char)
  | _, [] => some []
  | _, '\n' :: cs => skipGaps false cs
  | _, '\r' :: '\n' :: cs => skipGaps false cs
  | true, c :: cs => if isText c then skipGaps true cs else none
  | false, c :: cs =>
    if isBlank c then skipGaps false cs
    else if c = '#' then skipGaps true cs
    else some (c :: cs)

/-! ## Strings -/

/-- A character that is written by its number, in exactly `n` hexadecimal digits. -/
def readCode (n : Nat) : Reader Char := fun cs => do
  let digits ← (cs.take n).mapM hexValue?
  let code := digits.foldl (fun n d => n * 16 + d) 0
  if digits.length = n ∧ code.isValidChar then return (Char.ofNat code, cs.drop n) else none

/-- The character after a backslash. -/
def readEscape : Reader Char
  | '"' :: cs => some ('"', cs)
  | '\\' :: cs => some ('\\', cs)
  | 'b' :: cs => some (Char.ofNat 0x08, cs)
  | 'f' :: cs => some (Char.ofNat 0x0c, cs)
  | 'n' :: cs => some ('\n', cs)
  | 'r' :: cs => some ('\r', cs)
  | 't' :: cs => some ('\t', cs)
  | 'u' :: cs => readCode 4 cs
  | 'U' :: cs => readCode 8 cs
  | _ => none

/-- The characters of a string on one line, up to its quote. -/
def readLine (quote : Char) : (n : Nat) → Reader (List Char)
  | 0, _ | _, [] => none
  | n + 1, c :: cs =>
    if c = quote then some ([], cs)
    else if c = '\\' ∧ quote = '"' then do
      let (e, cs) ← readEscape cs
      let (rest, cs) ← readLine quote n cs
      return (e :: rest, cs)
    else if isText c then do
      let (rest, cs) ← readLine quote n cs
      return (c :: rest, cs)
    else none

/-- Passes over blanks and line ends. -/
def skipEmptyLines : List Char → List Char
  | [] => []
  | '\n' :: cs => skipEmptyLines cs
  | '\r' :: '\n' :: cs => skipEmptyLines cs
  | c :: cs => if isBlank c then skipEmptyLines cs else c :: cs

/-- Passes over a line end after blanks, and the blanks and line ends after it. -/
def skipFold? (cs : List Char) : Option (List Char) :=
  (lineEnd? (skipBlanks cs)).map skipEmptyLines

/-- The characters of a string over several lines, up to three quotes, before which two more may
belong to the string. -/
def readBlock (quote : Char) : (n : Nat) → Reader (List Char)
  | 0, _ | _, [] => none
  | n + 1, c :: cs =>
    if c = quote then
      let run := ((c :: cs).takeWhile (· == quote)).length
      if run < 3 then do
        let (rest, cs) ← readBlock quote n cs
        return (c :: rest, cs)
      else
        let own := min (run - 3) 2
        some (List.replicate own quote, (c :: cs).drop (own + 3))
    else if c = '\\' ∧ quote = '"' then
      match skipFold? cs with
      | some cs => readBlock quote n cs
      | none => do
        let (e, cs) ← readEscape cs
        let (rest, cs) ← readBlock quote n cs
        return (e :: rest, cs)
    else
      match lineEnd? (c :: cs) with
      | some cs => do
        let (rest, cs) ← readBlock quote n cs
        return ('\n' :: rest, cs)
      | none =>
        if isText c then do
          let (rest, cs) ← readBlock quote n cs
          return (c :: rest, cs)
        else none

/-- A string, after its opening quote. A line end right after three quotes is left out. -/
def readString (quote : Char) : Reader String := fun cs => do
  let (s, cs) ←
    match cs with
    | a :: b :: rest =>
      if a = quote ∧ b = quote then readBlock quote (rest.length + 1) ((lineEnd? rest).getD rest)
      else readLine quote (cs.length + 1) cs
    | _ => readLine quote (cs.length + 1) cs
  return (String.ofList s, cs)

/-! ## Keys -/

def isKeyChar (c : Char) : Bool := c.isAlphanum || c == '_' || c == '-'

/-- A part of a key, bare or between quotes. -/
def readKeyPart : Reader String
  | '"' :: cs => do
    let (s, cs) ← readLine '"' (cs.length + 1) cs
    return (String.ofList s, cs)
  | '\'' :: cs => do
    let (s, cs) ← readLine '\'' (cs.length + 1) cs
    return (String.ofList s, cs)
  | cs =>
    let bare := cs.takeWhile isKeyChar
    if bare.isEmpty then none else some (String.ofList bare, cs.dropWhile isKeyChar)

/-- The parts of a key, between dots, with the blanks around them, in at most `n` rounds. Gives the
last part apart from those before it. -/
def readKeyParts : (n : Nat) → Reader (List String × String)
  | 0, _ => none
  | n + 1, cs => do
    let (part, cs) ← readKeyPart (skipBlanks cs)
    match skipBlanks cs with
    | '.' :: cs =>
      let ((path, last), cs) ← readKeyParts n cs
      return ((part :: path, last), cs)
    | cs => return (([], part), cs)

/-- How many parts a key may have, and how many arrays and tables may be open at once within a
value. The two are counted apart. -/
def maxDepth : Nat := 79

/-- A key, which may not have too many parts. -/
def readKey : Reader (List String × String) := fun cs => do
  let ((path, last), cs) ← readKeyParts (cs.length + 1) cs
  if path.length < maxDepth then return ((path, last), cs) else none

/-! ## Values -/

/-- A value without quotes and brackets. A date and a time of day may have a blank between them. -/
def readScalar : Reader Toml := fun cs => do
  let word := cs.takeWhile isScalarChar
  let rest := cs.dropWhile isScalarChar
  let value ← scalar? word
  match rest with
  | ' ' :: c :: after =>
    if isDate word && c.isDigit then
      let time := (c :: after).takeWhile isScalarChar
      if isZonedTime time then
        return (.moment (String.ofList (word ++ ' ' :: time)),
          (c :: after).dropWhile isScalarChar)
      else none
    else return (value, rest)
  | _ => return (value, rest)

mutual

/-- A value, in at most `n` steps, within which `depth` arrays and tables may be open at once. -/
def readValue : (n depth : Nat) → Reader Toml
  | 0, _, _ => none
  | n + 1, depth, cs =>
    match cs with
    | '"' :: cs => do
      let (s, cs) ← readString '"' cs
      return (.str s, cs)
    | '\'' :: cs => do
      let (s, cs) ← readString '\'' cs
      return (.str s, cs)
    | '[' :: cs =>
      match depth with
      | 0 => none
      | depth + 1 => do
        let (items, cs) ← readItems n depth cs
        return (.arr items, cs)
    | '{' :: cs =>
      match depth with
      | 0 => none
      | depth + 1 =>
        match skipBlanks cs with
        | '}' :: cs => return (.table .closed [], cs)
        | cs => do
          let (entries, cs) ← readMembers n depth [] cs
          return (.table .closed entries, cs)
    | cs => readScalar cs

/-- The items of an array and its end. After the last item there may be a comma. -/
def readItems : (n depth : Nat) → Reader (List Toml)
  | 0, _, _ => none
  | n + 1, depth, cs => do
    match ← skipGaps false cs with
    | ']' :: cs => return ([], cs)
    | cs =>
      let (item, cs) ← readValue n depth cs
      match ← skipGaps false cs with
      | ',' :: cs =>
        let (items, cs) ← readItems n depth cs
        return (item :: items, cs)
      | ']' :: cs => return ([item], cs)
      | _ => none

/-- The members of a table between braces and its end, given those before. -/
def readMembers : (n depth : Nat) → Entries → Reader Entries
  | 0, _, _, _ => none
  | n + 1, depth, entries, cs => do
    let ((path, key), value, cs) ← readDefinition n depth cs
    let entries ← defineAt path key value entries
    match skipBlanks cs with
    | ',' :: cs => readMembers n depth entries cs
    | '}' :: cs => return (entries, cs)
    | _ => none

/-- A key and its value. -/
def readDefinition :
    (n depth : Nat) → List Char → Option ((List String × String) × Toml × List Char)
  | 0, _, _ => none
  | n + 1, depth, cs => do
    match ← readKey cs with
    | (key, '=' :: cs) =>
      let (value, cs) ← readValue n depth (skipBlanks cs)
      return (key, value, cs)
    | _ => none

end

/-! ## Lines -/

/-- A document of which some lines have been read. -/
structure Draft where
  /-- The table that was opened last. -/
  opened : List String
  root : Entries

namespace Draft

/-- Opens the table that a header names. -/
def header (declare : String → Entries → Option Entries) (path : List String) (key : String)
    (draft : Draft) : Option Draft := do
  let root ← changeAt .implied (fun _ => declare key) path .declared draft.root
  return ⟨path ++ [key], root⟩

/-- Defines a key in the opened table. -/
def define (path : List String) (key : String) (value : Toml) (draft : Draft) : Option Draft := do
  let root ←
    changeAt .implied (fun _ => defineAt path key value) draft.opened .declared draft.root
  return { draft with root := root }

end Draft

/-- Reads lines to the end of the text, in at most `n` rounds. -/
def readLines : (n : Nat) → Draft → List Char → Option Draft
  | 0, _, _ => none
  | n + 1, draft, cs => do
    let cs := skipBlanks cs
    match cs with
    | [] => return draft
    | '[' :: '[' :: cs =>
      match ← readKey cs with
      | ((path, key), ']' :: ']' :: cs) =>
        readLines n (← draft.header declareItem path key) (← finishLine cs)
      | _ => none
    | '[' :: cs =>
      match ← readKey cs with
      | ((path, key), ']' :: cs) =>
        readLines n (← draft.header declare path key) (← finishLine cs)
      | _ => none
    | '#' :: _ | '\n' :: _ | '\r' :: _ => readLines n draft (← finishLine cs)
    | cs =>
      let ((path, key), value, cs) ← readDefinition (2 * cs.length + 2) maxDepth cs
      readLines n (← draft.define path key value) (← finishLine cs)

/-- The tables of a document. A byte order mark at its start is left out. -/
def ofText? (text : String) : Option Entries := do
  let cs := match text.toList with
    | '\uFEFF' :: cs => cs
    | cs => cs
  return (← readLines (cs.length + 1) ⟨[], []⟩ cs).root

end MethodBrowser.Toml
