import MethodBrowser.Selector
import MethodBrowser.Source.Preamble

/-!
# Method headers

The first line of a method starts with its signature: `size`, `+ other` or
`at: index put: value`. What follows the signature on that line, a comment or the body of a short
method, is no part of the header and is left alone.

A signature consists of ASCII characters, so its length in characters is its length in bytes.
-/

namespace MethodBrowser

/-- A signature. -/
structure Header where
  selector : String
  kind : SelectorKind
  /-- The tokens of the selector. -/
  parts : List String
  /-- The names of the arguments. -/
  arguments : List String
  /-- The offset just past the signature. -/
  signatureEnd : Nat
  deriving DecidableEq

namespace Header

/-- The white space inside a line. -/
def isLineBlank (c : Char) : Bool := c == ' ' || c == '\t' || c == '\r'

def skipBlanks (cs : List Char) : List Char := cs.dropWhile isLineBlank

theorem length_dropWhile_le (p : Char → Bool) (cs : List Char) :
    (cs.dropWhile p).length ≤ cs.length :=
  (List.dropWhile_sublist p).length_le

/-- The keywords and arguments at the start of a line, and what follows the last argument. -/
def pairs (cs : List Char) : List (List Char × List Char) × List Char :=
  match _colon : cs.dropWhile isIdentRest with
  | ':' :: afterColon =>
    let word := cs.takeWhile isIdentRest
    let argument := (skipBlanks afterColon).takeWhile isIdentRest
    let rest := (skipBlanks afterColon).dropWhile isIdentRest
    if word.isEmpty || !isIdentifier argument || rest.head? == some ':' then ([], cs)
    else if (skipBlanks rest).head?.any isIdentStart then
      match pairs (skipBlanks rest) with
      | ([], _) => ([(word, argument)], rest)
      | (more, rest') => ((word, argument) :: more, rest')
    else ([(word, argument)], rest)
  | _ => ([], cs)
termination_by cs.length
decreasing_by
  have h₁ := length_dropWhile_le isIdentRest cs
  have h₂ := length_dropWhile_le isLineBlank afterColon
  have h₃ := length_dropWhile_le isIdentRest (afterColon.dropWhile isLineBlank)
  have h₄ := length_dropWhile_le isLineBlank
    ((afterColon.dropWhile isLineBlank).dropWhile isIdentRest)
  simp only [_colon, List.length_cons] at h₁
  simp only [skipBlanks]
  omega

/-- Reads the signature at the start of a line. -/
def parse? (line : String) : Option Header :=
  let all := line.toList
  let cs := skipBlanks all
  match cs with
  | [] => none
  | c :: _ =>
    if isBinaryChar c then
      let operator := (cs.takeWhile isBinaryChar).take Source.maxBinarySize
      let rest := cs.drop operator.length
      let argument := (skipBlanks rest).takeWhile isIdentRest
      let rest' := (skipBlanks rest).dropWhile isIdentRest
      if !isIdentifier argument || rest.head?.any isBinaryChar then none
      else
        let selector := String.ofList operator
        some ⟨selector, .binary, [selector], [String.ofList argument], all.length - rest'.length⟩
    else if isIdentStart c then
      let word := cs.takeWhile isIdentRest
      let rest := cs.dropWhile isIdentRest
      if rest.head? != some ':' || rest.tail.head? == some '=' then
        let selector := String.ofList word
        some ⟨selector, .unary, [selector], [], all.length - rest.length⟩
      else
        match pairs cs with
        | ([], _) => none
        | (found, rest') =>
          let parts := found.map fun p => String.ofList (p.1 ++ [':'])
          some ⟨String.join parts, .keyword, parts, found.map fun p => String.ofList p.2,
            all.length - rest'.length⟩
    else none

/-- Reads the signature of a method. -/
def ofText? (text : String) : Option Header := parse? (splitHeader text).1

/-- The signature with the given tokens and argument names. -/
def ofParts (kind : SelectorKind) (parts arguments : List String) : Header :=
  ⟨String.join parts, kind, parts, arguments, 0⟩

/-- The selector applied to expressions: a signature if they are argument names, a message if
they are values. -/
def renderWith (h : Header) (arguments : List String) : String :=
  match h.kind with
  | .unary => h.selector
  | .binary =>
    match arguments with
    | [] => h.selector
    | argument :: _ => h.selector ++ " " ++ argument
  | .keyword =>
    String.intercalate " " ((h.parts.zip arguments).map fun p => p.1 ++ " " ++ p.2)

def render (h : Header) : String := h.renderWith h.arguments

end Header

end MethodBrowser
