import MethodBrowser.Source.Basic

/-!
# Marking bytes in a loop

The marks of a text as a loop over its bytes computes them. The loop knows three states. It looks
one byte ahead for a doubled quote, and behind `$` it decodes a character to see how many bytes to
mark with it. All signs of the syntax are ASCII, so it need not know where other characters start.

`classify` reads characters and needs neither the lookahead nor the jump; the marks are the same.
-/

namespace MethodBrowser

/-- What the loop is in the middle of. -/
inductive ByteState where
  | code
  | string
  | comment
  deriving DecidableEq

/-- The marks of the bytes from `i` on. -/
def marksFrom (text : String) (state : ByteState) (i : Nat) : List Kind :=
  if _h : i < text.toByteArray.size then
    let byte := text.toByteArray[i]
    match state with
    | .code =>
      if byte == '\''.toUInt8 then .string :: marksFrom text .string (i + 1)
      else if byte == '"'.toUInt8 then .comment :: marksFrom text .comment (i + 1)
      else if byte == '$'.toUInt8 && i + 1 < text.toByteArray.size then
        let width := (String.Pos.Raw.get text ⟨i + 1⟩).utf8Size
        .code :: (List.replicate width .string ++ marksFrom text .code (i + 1 + width))
      else .code :: marksFrom text .code (i + 1)
    | .string =>
      if byte == '\''.toUInt8 then
        if text.toByteArray[i + 1]? == some '\''.toUInt8 then
          .string :: .string :: marksFrom text .string (i + 2)
        else .string :: marksFrom text .code (i + 1)
      else .string :: marksFrom text .string (i + 1)
    | .comment =>
      if byte == '"'.toUInt8 then .comment :: marksFrom text .code (i + 1)
      else .comment :: marksFrom text .comment (i + 1)
  else []
termination_by text.toByteArray.size - i
decreasing_by all_goals exact Nat.sub_lt_sub_left _h (by omega)

/-- The mark of each byte of a text. -/
def marks (text : String) : List Kind := marksFrom text .code 0

end MethodBrowser
