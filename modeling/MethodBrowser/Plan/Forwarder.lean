import MethodBrowser.Edit
import MethodBrowser.Plan.Basic

/-!
# Forwarders

When a parameter is added to a method or removed from it, its selector changes and its senders do
not. They are kept working by a forwarder: a method of one line under the old selector that sends
the new one.
-/

namespace MethodBrowser

/-- A keyword method of an image with its signature. -/
structure KeywordMethod where
  method : MethodRef
  source : String
  header : Header

namespace Session

variable (session : Session)

/-- Finds a keyword method whose header spells the selector that it is stored under. -/
def keywordMethod (className : String) (side : Side) (selector : String) :
    Except Failure KeywordMethod := do
  require (Selector.kind? selector == some .keyword) (.keywordSelectorRequired selector)
  let method : MethodRef := ⟨className, side, selector⟩
  let source ← session.sourceOf method
  match Header.ofText? source with
  | none => throw (.precondition (.unreadableMethod method))
  | some header =>
    require (header.kind == .keyword && header.selector == selector) (.unreadableMethod method)
    return ⟨method, source, header⟩

/-- The method on the class and side of another one that gets a new selector, which must be free
unless it may be overwritten. -/
def freeMethod (method : MethodRef) (selector : String) (overwrite : Bool) :
    Except Failure MethodRef := do
  let new := { method with selector := selector }
  if !overwrite then
    let taken ← session.implements method.className method.side selector
    require (!taken) (.targetExists new)
  return new

end Session

/-- The method with signature `header` that sends `target` with the given arguments to itself. -/
def forwarder (header target : Header) (arguments : List String) : String :=
  header.render ++ "\n" ++ indent ++ "^self " ++ target.renderWith arguments

/-! ## Arguments -/

/-- A number, optionally negative. Points are taken for digits, except at the end. -/
def isNumeral (cs : List Char) : Bool :=
  let digits := if cs.head? == some '-' then cs.tail else cs
  !digits.isEmpty && digits.all (fun c => c.isDigit || c == '.') && digits.getLast? != some '.'

/-- One complete string literal: nothing of it is code, and what follows it is. -/
def isStringLiteral (expression : String) : Bool :=
  let src := Source.ofText expression
  Nat.ble 2 src.size && expression.toList.getLast? == some '\''
    && src.cells.all (·.kind == .string)
    && (Source.ofText (expression ++ " x")).isCode (src.size + 1)

/-- A single name or literal, which needs no parentheses. -/
def isAtom (expression : String) : Bool :=
  let cs := expression.toList
  isIdentifier cs || isNumeral cs ||
    match cs with
    | '\'' :: _ => isStringLiteral expression
    | '#' :: rest => !rest.isEmpty && rest.all fun c => isIdentRest c || c == ':'
    | '$' :: rest => rest.length == 1
    | _ => false

/-- An expression in the place of an argument. -/
def asArgument (expression : String) : String :=
  let trimmed := Text.trim expression
  if isAtom trimmed then trimmed else "(" ++ trimmed ++ ")"

/-- The writes that put a method and a forwarder to it in place. -/
def forwarderWrites (method : MethodRef) (newSource forwarder category : String) : List Write :=
  [.compile method.className method.side newSource category,
    .compile method.className method.side forwarder category]

def forwarderChanges (method newMethod : MethodRef) (oldSource newSource forwarder : String) :
    List SourceChange :=
  [⟨newMethod.display, "", newSource⟩, ⟨method.display, oldSource, forwarder⟩]

end MethodBrowser
