import MethodBrowser.Source.Basic

/-!
# Nesting

How many parentheses, brackets and braces are open at a point of a method. The three kinds are
counted apart and need not match each other; a closing character that closes nothing leaves the
counters alone.
-/

namespace MethodBrowser

/-- The groups that are open, by kind. -/
structure Nesting where
  parens : Nat
  brackets : Nat
  braces : Nat
  deriving DecidableEq

namespace Nesting

def empty : Nesting := ⟨0, 0, 0⟩

/-- No group is open. -/
def isTopLevel (n : Nesting) : Bool := n.parens == 0 && n.brackets == 0 && n.braces == 0

/-- The counters after a byte of code, or `none` if it closes a group that was never opened. -/
def step? (n : Nesting) (b : UInt8) : Option Nesting :=
  match Char.ofUInt8 b with
  | '(' => some { n with parens := n.parens + 1 }
  | '[' => some { n with brackets := n.brackets + 1 }
  | '{' => some { n with braces := n.braces + 1 }
  | ')' => if n.parens = 0 then none else some { n with parens := n.parens - 1 }
  | ']' => if n.brackets = 0 then none else some { n with brackets := n.brackets - 1 }
  | '}' => if n.braces = 0 then none else some { n with braces := n.braces - 1 }
  | _ => some n

/-- The counters after a byte of code, where an unmatched closer changes nothing. -/
def step (n : Nesting) (b : UInt8) : Nesting := (n.step? b).getD n

end Nesting

namespace Source

variable (src : Source)

/-- The byte at `i`, if it is code. -/
def codeByte? (i : Nat) : Option UInt8 :=
  match src.cells[i]? with
  | some ⟨b, .code⟩ => some b
  | _ => none

/-- The counters after the byte at `i`. Literals and comments do not nest. -/
def nest (n : Nesting) (i : Nat) : Nesting :=
  match src.codeByte? i with
  | some b => n.step b
  | none => n

end Source

end MethodBrowser
