/-!
# Digits

Digits of bases up to sixteen, in either case, and the numbers that they write.
-/

namespace MethodBrowser.Text

/-- The value of a hexadecimal digit. -/
def hexValue? (c : Char) : Option Nat :=
  if c.isDigit then some (c.toNat - '0'.toNat)
  else if 'a' ≤ c && c ≤ 'f' then some (c.toNat - 'a'.toNat + 10)
  else if 'A' ≤ c && c ≤ 'F' then some (c.toNat - 'A'.toNat + 10)
  else none

/-- The value of a digit in a base. -/
def digitValue? (base : Nat) (c : Char) : Option Nat := (hexValue? c).filter (· < base)

/-- The number that digits write, the most significant first. There must be a digit. -/
def number? (base : Nat) (digits : List Char) : Option Nat :=
  if digits.isEmpty then none
  else do
    let values ← digits.mapM (digitValue? base)
    return values.foldl (fun n d => n * base + d) 0

/-- A natural number up to `max` as it may be given from outside: decimal digits, which a plus sign
may precede. -/
def natural? (max : Nat) (text : String) : Option Nat :=
  let digits := match text.toList with
    | '+' :: cs => cs
    | cs => cs
  (number? 10 digits).filter (· ≤ max)

/-- A natural number up to `max` that is given as an integer: either sign may precede the digits, so
that zero may be negative. -/
def integralNatural? (max : Nat) (text : String) : Option Nat :=
  match text.toList with
  | '-' :: digits => (number? 10 digits).filter (· == 0)
  | _ => natural? max text

end MethodBrowser.Text
