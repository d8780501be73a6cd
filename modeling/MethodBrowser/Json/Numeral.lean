import MethodBrowser.Text.Digit
import MethodBrowser.Text.Double

/-!
# Numbers in JSON

A number is written as digits, an optional fraction and an optional exponent. Nothing in a snapshot
is a number, so only one thing has to be known of those that occur: whether they are too large.

**Reading with limited precision.** A number is taken as a whole number of 64 bits, made of its
leading digits, times a power of ten. Digits that no longer fit count as zeros. Both factors and
their product are rounded to double precision, and the number is too large if the product is.
-/

namespace MethodBrowser.Json

open Text (Double.limit Double.nearest digitValue?)

/-- The parts of a number without its sign. -/
structure Numeral where
  whole : List Char
  fraction : List Char
  exponent : Int
  deriving DecidableEq

/-- The greatest number of 64 bits. -/
def maxSignificand : Nat := 0xffffffffffffffff

/-- Appends digits to a number as long as it stays within 64 bits. Gives the number, and how many
digits are left over. -/
def appendDigits (n : Nat) : List Char → Nat × Nat
  | [] => (n, 0)
  | c :: cs =>
    let n' := n * 10 + (digitValue? 10 c).getD 0
    if maxSignificand < n' then (n, cs.length + 1) else appendDigits n' cs

/-- A whole number of 64 bits and the exponent of the power of ten that it is multiplied by. -/
def Numeral.parts (numeral : Numeral) : Nat × Int :=
  let (n, wholeLeft) := appendDigits 0 numeral.whole
  let (n, fractionLeft) := appendDigits n numeral.fraction
  (n, numeral.exponent + wholeLeft - (numeral.fraction.length - fractionLeft))

/-- The greatest power of ten in double precision. -/
def maxExponent : Nat := 308

def Numeral.isTooLarge (numeral : Numeral) : Bool :=
  let (n, exponent) := numeral.parts
  if n = 0 || exponent < 0 then false
  else if maxExponent < exponent then true
  else
    let power := Nat.pow 10 exponent.toNat
    Double.limit ≤ Double.nearest (Double.nearest n * Double.nearest power)

end MethodBrowser.Json
