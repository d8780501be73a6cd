/-!
# JSON values

The values that answers and snapshots consist of, and their text. Objects keep the order of their
members. The only numbers are natural numbers.

The text is laid out for people: every element stands on a line of its own, indented by two
spaces per level, and an empty array or object is written without a line break. Characters outside
ASCII are written as they are.
-/

namespace MethodBrowser

inductive Json where
  | null
  | bool (b : Bool)
  | num (n : Nat)
  | str (s : String)
  | arr (items : List Json)
  | obj (members : List (String × Json))

namespace Json

def strs (items : List String) : Json := arr (items.map str)

def optional {α : Type} (f : α → Json) : Option α → Json
  | some a => f a
  | none => null

/-! ## Strings -/

def hexDigit (n : Nat) : Char :=
  if n < 10 then Char.ofNat ('0'.toNat + n) else Char.ofNat ('a'.toNat + (n - 10))

/-- A character inside a string. Control characters, the quote and the backslash are escaped. -/
def escapeChar (c : Char) : List Char :=
  if c = '"' then ['\\', '"']
  else if c = '\\' then ['\\', '\\']
  else if c = '\n' then ['\\', 'n']
  else if c = '\r' then ['\\', 'r']
  else if c = '\t' then ['\\', 't']
  else if c.toNat = 0x08 then ['\\', 'b']
  else if c.toNat = 0x0c then ['\\', 'f']
  else if c.toNat < 0x20 then
    ['\\', 'u', '0', '0', hexDigit (c.toNat / 16), hexDigit (c.toNat % 16)]
  else [c]

/-- A string between its quotes. -/
def quote (s : String) : String :=
  String.ofList ('"' :: s.toList.flatMap escapeChar ++ ['"'])

/-! ## Layout -/

/-- A new line with an indentation of `level` steps. -/
def newline (level : Nat) : String := String.ofList ('\n' :: List.replicate (2 * level) ' ')

mutual

/-- The text of a value whose first line stands at the given level. -/
def prettyAt (level : Nat) : Json → String
  | null => "null"
  | bool true => "true"
  | bool false => "false"
  | num n => n.repr
  | str s => quote s
  | arr [] => "[]"
  | arr (item :: items) =>
    "[" ++ newline (level + 1) ++ prettyAt (level + 1) item ++ prettyItems (level + 1) items
      ++ newline level ++ "]"
  | obj [] => "\x7b\x7d"
  | obj ((key, value) :: members) =>
    "\x7b" ++ newline (level + 1) ++ quote key ++ ": " ++ prettyAt (level + 1) value
      ++ prettyMembers (level + 1) members ++ newline level ++ "\x7d"

/-- The items of an array after the first. -/
def prettyItems (level : Nat) : List Json → String
  | [] => ""
  | item :: items => "," ++ newline level ++ prettyAt level item ++ prettyItems level items

/-- The members of an object after the first. -/
def prettyMembers (level : Nat) : List (String × Json) → String
  | [] => ""
  | (key, value) :: members =>
    "," ++ newline level ++ quote key ++ ": " ++ prettyAt level value
      ++ prettyMembers level members

end

/-- The text of a value. -/
def pretty (value : Json) : String := prettyAt 0 value

end Json

end MethodBrowser
