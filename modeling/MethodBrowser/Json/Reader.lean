import MethodBrowser.Dictionary
import MethodBrowser.Json.Numeral

/-!
# Reading JSON

A document is read from left to right against what is expected at each place: a string, a truth
value, a record with known fields, a dictionary. The first thing that does not fit decides how the
reading fails (`Fault`): the text is no JSON, it ends too early, or it is JSON of another kind.

Fields that are not known to a record are passed over. A record may also be written as the array
of its fields in their order, in which the last ones may be missing.

Repetitions are bounded by the length of what is left to read, since each round consumes a
character.
-/

namespace MethodBrowser.Json

open Text (hexValue? number?)

variable {α ρ σ : Type}

/-- Why a document cannot be read. -/
inductive Fault where
  /-- The text is not JSON. -/
  | malformed
  /-- The text ends too early. -/
  | truncated
  /-- The text is JSON so far, but not what is expected. -/
  | mismatched
  deriving DecidableEq

/-- Reads something from the start of a text and gives what is left of it. -/
abbrev Reader (α : Type) := List Char → Except Fault (α × List Char)

def isBlank (c : Char) : Bool := c == ' ' || c == '\n' || c == '\t' || c == '\r'

def skipBlanks (cs : List Char) : List Char := cs.dropWhile isBlank

/-- Passes over the given characters. -/
def expect : List Char → List Char → Except Fault (List Char)
  | [], cs => .ok cs
  | _ :: _, [] => .error .truncated
  | e :: es, c :: cs => if c = e then expect es cs else .error .malformed

/-! ## Strings -/

/-- The four digits of a code unit. With fewer than four bytes left the text ends too early. -/
def readUnit : Reader Nat
  | a :: b :: c :: d :: rest =>
    match hexValue? a, hexValue? b, hexValue? c, hexValue? d with
    | some a, some b, some c, some d => .ok (((a * 16 + b) * 16 + c) * 16 + d, rest)
    | _, _, _, _ => .error .malformed
  | cs => .error (if (String.ofList cs).utf8ByteSize < 4 then .truncated else .malformed)

def isHighSurrogate (n : Nat) : Bool := 0xd800 ≤ n && n ≤ 0xdbff

def isLowSurrogate (n : Nat) : Bool := 0xdc00 ≤ n && n ≤ 0xdfff

/-- The character of an escaped code unit. Surrogates must come in pairs. -/
def readPaired : Reader Char := fun cs => do
  let (high, cs) ← readUnit cs
  if isLowSurrogate high then throw .malformed
  if !isHighSurrogate high then return (Char.ofNat high, cs)
  let cs ← expect ['\\', 'u'] cs
  let (low, cs) ← readUnit cs
  if !isLowSurrogate low then throw .malformed
  return (Char.ofNat (0x10000 + (high - 0xd800) * 0x400 + (low - 0xdc00)), cs)

/-- The character after a backslash. Where `paired` does not hold, the string is not wanted and
surrogates may stand alone. -/
def readEscape (paired : Bool) : Reader Char
  | [] => .error .truncated
  | '"' :: cs => .ok ('"', cs)
  | '\\' :: cs => .ok ('\\', cs)
  | '/' :: cs => .ok ('/', cs)
  | 'b' :: cs => .ok (Char.ofNat 0x08, cs)
  | 'f' :: cs => .ok (Char.ofNat 0x0c, cs)
  | 'n' :: cs => .ok ('\n', cs)
  | 'r' :: cs => .ok ('\r', cs)
  | 't' :: cs => .ok ('\t', cs)
  | 'u' :: cs =>
    if paired then readPaired cs
    else do
      let (unit, cs) ← readUnit cs
      return (Char.ofNat unit, cs)
  | _ => .error .malformed

/-- The characters of a string up to its closing quote, in at most `n` steps. -/
def readChars (paired : Bool) : (n : Nat) → Reader (List Char)
  | 0, _ => .error .truncated
  | _ + 1, [] => .error .truncated
  | n + 1, c :: cs =>
    if c = '"' then .ok ([], cs)
    else if c = '\\' then do
      let (e, cs) ← readEscape paired cs
      let (rest, cs) ← readChars paired n cs
      return (e :: rest, cs)
    else if c.toNat < 0x20 then .error .malformed
    else do
      let (rest, cs) ← readChars paired n cs
      return (c :: rest, cs)

/-- A string whose opening quote has been read. -/
def readString : Reader String := fun cs => do
  let (s, cs) ← readChars true (cs.length + 1) cs
  return (String.ofList s, cs)

/-! ## Values that are not wanted -/

/-- Digits, of which there must be one. If the text ends instead, that is the fault `ended`. -/
def readDigits (ended : Fault) : Reader (List Char)
  | [] => .error ended
  | c :: cs =>
    if c.isDigit then .ok (c :: cs.takeWhile Char.isDigit, cs.dropWhile Char.isDigit)
    else .error .malformed

/-- The digits before the point. A zero stands alone. -/
def readWhole (ended : Fault) : Reader (List Char)
  | '0' :: cs => if cs.head?.any Char.isDigit then .error .malformed else .ok (['0'], cs)
  | cs => readDigits ended cs

/-- The point and the digits after it, if there is a point. -/
def readFraction (ended : Fault) : Reader (List Char)
  | '.' :: cs => readDigits ended cs
  | cs => .ok ([], cs)

/-- The exponent, if there is one. -/
def readExponent (ended : Fault) : Reader Int := fun cs =>
  match cs with
  | 'e' :: rest | 'E' :: rest => do
    let (negative, rest) := match rest with
      | '-' :: rest => (true, rest)
      | '+' :: rest => (false, rest)
      | rest => (false, rest)
    let (digits, rest) ← readDigits ended rest
    let n := (number? 10 digits).getD 0
    return (if negative then -Int.ofNat n else Int.ofNat n, rest)
  | _ => .ok (0, cs)

/-- A number without its sign. -/
def readNumeral (ended : Fault) : Reader Numeral := fun cs => do
  let (whole, cs) ← readWhole ended cs
  let (fraction, cs) ← readFraction ended cs
  let (exponent, cs) ← readExponent ended cs
  return (⟨whole, fraction, exponent⟩, cs)

/-- Passes over a number without its sign. In a place where a value is wanted, it must not be too
large, and the text may end too early in it. -/
def skipNumber (wanted : Bool) (cs : List Char) : Except Fault (List Char) := do
  let (numeral, cs) ← readNumeral (if wanted then .truncated else .malformed) cs
  if wanted && numeral.isTooLarge then throw .malformed
  return cs

/-- Passes over a value that is not made up of others. In a value that is not wanted, a number
must be complete where the text ends, and may be of any size. -/
def skipScalar (wanted : Bool) (cs : List Char) : Except Fault (List Char) :=
  match cs with
  | [] => .error .truncated
  | 'n' :: rest => expect ['u', 'l', 'l'] rest
  | 't' :: rest => expect ['r', 'u', 'e'] rest
  | 'f' :: rest => expect ['a', 'l', 's', 'e'] rest
  | '"' :: rest => (readChars wanted (rest.length + 1) rest).map (·.2)
  | '-' :: rest => skipNumber wanted rest
  | c :: _ => if c.isDigit then skipNumber wanted cs else .error .malformed

/-- The fault of a value that is of another kind than expected. The value itself may be at
fault first. -/
def mismatch (cs : List Char) : Fault :=
  match cs with
  | '[' :: _ | '{' :: _ => .mismatched
  | _ =>
    match skipScalar true cs with
    | .ok _ => .mismatched
    | .error fault => fault

/-- What stands between two members or items: nothing before the first, else a comma. Gives the
text after it, or `none` where the closing character stands. -/
def separator (close : Char) (first : Bool) (cs : List Char) :
    Except Fault (Option (List Char)) :=
  match skipBlanks cs with
  | [] => .error .truncated
  | c :: rest =>
    if c = close then .ok none
    else if first then .ok (some (c :: rest))
    else if c = ',' then .ok (some (skipBlanks rest))
    else .error .malformed

/-- The name of a member. -/
def readKey : Reader String
  | [] => .error .truncated
  | '"' :: cs => readString cs
  | _ => .error .malformed

def skipColon (cs : List Char) : Except Fault (List Char) :=
  match skipBlanks cs with
  | [] => .error .truncated
  | ':' :: rest => .ok rest
  | _ => .error .malformed

mutual

/-- Passes over a value that is not wanted, in at most `n` steps. -/
def skipValue : (n : Nat) → List Char → Except Fault (List Char)
  | 0, _ => .error .truncated
  | n + 1, cs =>
    match skipBlanks cs with
    | '[' :: rest => skipItems n true rest
    | '{' :: rest => skipMembers n true rest
    | cs => skipScalar false cs

/-- Passes over the items of an array and its end. -/
def skipItems : (n : Nat) → (first : Bool) → List Char → Except Fault (List Char)
  | 0, _, _ => .error .truncated
  | n + 1, first, cs => do
    match ← separator ']' first cs with
    | none => return (skipBlanks cs).tail
    | some cs => skipItems n false (← skipValue n cs)

/-- Passes over the members of an object and its end. -/
def skipMembers : (n : Nat) → (first : Bool) → List Char → Except Fault (List Char)
  | 0, _, _ => .error .truncated
  | n + 1, first, cs => do
    match ← separator '}' first cs with
    | none => return (skipBlanks cs).tail
    | some cs =>
      match cs with
      | '"' :: cs =>
        let (_, cs) ← readChars false (cs.length + 1) cs
        skipMembers n false (← skipValue n (← skipColon cs))
      | [] => throw .truncated
      | _ => throw .malformed

end

/-- Passes over a value of any kind. -/
def skipAny (cs : List Char) : Except Fault (List Char) := skipValue (cs.length + 1) cs

/-! ## Values that are wanted -/

def readStr : Reader String := fun cs =>
  match skipBlanks cs with
  | '"' :: rest => readString rest
  | cs => .error (mismatch cs)

def readStrOrNull : Reader (Option String) := fun cs =>
  match skipBlanks cs with
  | 'n' :: rest => do
    return (none, ← expect ['u', 'l', 'l'] rest)
  | cs => do
    let (s, cs) ← readStr cs
    return (some s, cs)

def readBool : Reader Bool := fun cs =>
  match skipBlanks cs with
  | 't' :: rest => do
    return (true, ← expect ['r', 'u', 'e'] rest)
  | 'f' :: rest => do
    return (false, ← expect ['a', 'l', 's', 'e'] rest)
  | cs => .error (mismatch cs)

/-- Reads the members of an object and its end, in at most `n` rounds. Each member changes a
state. -/
def readMembers (member : String → σ → Reader σ) : (n : Nat) → (first : Bool) → σ → Reader σ
  | 0, _, _, _ => .error .truncated
  | n + 1, first, state, cs => do
    match ← separator '}' first cs with
    | none => return (state, (skipBlanks cs).tail)
    | some cs =>
      let (key, cs) ← readKey cs
      let (state, cs) ← member key state cs
      readMembers member n false state cs

/-- A dictionary of values. If a name occurs twice, its last value counts. -/
def readDictionary (value : Reader α) : Reader (Dictionary α) := fun cs =>
  match skipBlanks cs with
  | '{' :: rest =>
    let member := fun key (d : Dictionary α) cs => do
      let (v, cs) ← value (← skipColon cs)
      return (d.insert key v, cs)
    readMembers member (rest.length + 1) true .empty rest
  | cs => .error (mismatch cs)

/-- A field of a record: its name, and how its value is read into a record. -/
structure RecordField (ρ : Type) where
  name : String
  read : ρ → Reader ρ

/-- A member of a record, given the names of the fields read so far. -/
def readField (fields : List (RecordField ρ)) (key : String) (state : List String × ρ) :
    Reader (List String × ρ) := fun cs =>
  match fields.find? (·.name == key) with
  | none => do
    return (state, ← skipAny (← skipColon cs))
  | some field => do
    if state.1.contains key then throw .mismatched
    let (record, cs) ← field.read state.2 (← skipColon cs)
    return ((key :: state.1, record), cs)

/-- The items of an array that stands for a record, and its end. -/
def readFieldItems : List (RecordField ρ) → (first : Bool) → ρ → Reader ρ
  | [], _, record, cs =>
    match skipBlanks cs with
    | [] => .error .truncated
    | ']' :: rest => .ok (record, rest)
    | _ => .error .malformed
  | field :: fields, first, record, cs => do
    match ← separator ']' first cs with
    | none => return (record, (skipBlanks cs).tail)
    | some [] => throw .truncated
    | some (c :: cs) =>
      if c = ']' then throw .malformed
      let (record, cs) ← field.read record (c :: cs)
      readFieldItems fields false record cs

/-- A record, starting from a default in which the fields are filled in. -/
def readRecord (fields : List (RecordField ρ)) (record : ρ) : Reader ρ := fun cs =>
  match skipBlanks cs with
  | '{' :: rest => do
    let (state, cs) ← readMembers (readField fields) (rest.length + 1) true ([], record) rest
    return (state.2, cs)
  | '[' :: rest => readFieldItems fields true record rest
  | cs => .error (mismatch cs)

/-- Reads a whole document. Only white space may follow the value. -/
def readDocument (value : Reader α) (text : String) : Except Fault α := do
  let (a, cs) ← value text.toList
  if (skipBlanks cs).isEmpty then return a else throw .malformed

end MethodBrowser.Json
