/-!
# Double precision

How natural numbers are rounded to numbers of double precision, which have 53 significant bits and
lie below `2 ^ 1024`. Only the size of a number matters here, so a number too large to be
represented is simply one that is not below this limit once it is rounded.
-/

namespace MethodBrowser.Text.Double

/-- The number of significant bits. -/
def bits : Nat := 53

/-- All finite numbers are below this one. -/
def limit : Nat := Nat.pow 2 1024

/-- The nearest number of at most 53 significant bits; halfway between two, the even one. -/
def nearest (n : Nat) : Nat :=
  let unit := Nat.pow 2 (n.log2 + 1 - bits)
  let rest := n % unit
  let units :=
    if unit < 2 * rest || (unit == 2 * rest && n / unit % 2 == 1) then n / unit + 1 else n / unit
  units * unit

/-- The least number that is rounded to the limit. It lies half a unit above the greatest finite
number. -/
def overflowStart : Nat := limit - Nat.pow 2 (1023 - bits)

end MethodBrowser.Text.Double
