import MethodBrowser.Source.Token

/-!
# Selectors

A selector is the name of a message. Its shape tells how many arguments it takes: `size` is unary
and takes none, `<=` is binary and takes one, `at:put:` takes one per keyword.
-/

namespace MethodBrowser

/-- The shape of a selector. -/
inductive SelectorKind where
  | unary
  | binary
  | keyword
  deriving DecidableEq

def SelectorKind.name : SelectorKind → String
  | unary => "unary"
  | binary => "binary"
  | keyword => "keyword"

namespace Selector

/-- Cuts a list after each colon. -/
def cutAtColons : List Char → List (List Char)
  | [] => []
  | c :: cs =>
    if c = ':' then [c] :: cutAtColons cs
    else
      match cutAtColons cs with
      | [] => [[c]]
      | part :: parts => (c :: part) :: parts

/-- The keywords of a selector, colons included: `at:put:` has `at:` and `put:`. -/
def parts (selector : String) : List String := (cutAtColons selector.toList).map String.ofList

/-- The shape of a selector, or `none` if it is malformed. -/
def kind? (selector : String) : Option SelectorKind :=
  let cs := selector.toList
  if isIdentifier cs then some .unary
  else if !cs.isEmpty && Nat.ble cs.length Source.maxBinarySize && cs.all isBinaryChar then
    some .binary
  else if cs.getLast? == some ':'
      && (cutAtColons cs).all (fun part => isIdentifier part.dropLast) then
    some .keyword
  else none

/-- The number of arguments of a selector. A malformed one counts as taking none. -/
def arity (selector : String) : Nat :=
  match kind? selector with
  | some .unary | none => 0
  | some .binary => 1
  | some .keyword => (parts selector).length

/-- The tokens that spell a selector in code: its keywords, or the selector itself. -/
def tokens (selector : String) : List String :=
  match kind? selector with
  | some .keyword => parts selector
  | _ => [selector]

end Selector

end MethodBrowser
