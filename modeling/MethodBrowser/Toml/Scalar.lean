import MethodBrowser.Text.Digit
import MethodBrowser.Text.Double
import MethodBrowser.Toml.Basic

/-!
# Numbers, truth values and moments in TOML

The values that are written without quotes and brackets. Each is a run of letters, digits and a few
signs, read as a whole: an integer of 64 bits, a number with a fraction or an exponent, a date, a
time of day, or one of the words for truth and for the special numbers. Between the digits of a
number there may be single underscores.
-/

namespace MethodBrowser.Toml

open Text (Double.overflowStart digitValue? number?)

/-- Characters of unquoted values. -/
def isScalarChar (c : Char) : Bool :=
  c.isAlphanum || c == '_' || c == '+' || c == '-' || c == '.' || c == ':'

/-! ## Digits -/

/-- The digits of a base without the underscores between them. -/
def plainDigits? (base : Nat) : List Char → Option (List Char)
  | [] => none
  | [c] => if (digitValue? base c).isSome then some [c] else none
  | c :: '_' :: cs =>
    if (digitValue? base c).isSome then (plainDigits? base cs).map (c :: ·) else none
  | c :: cs => if (digitValue? base c).isSome then (plainDigits? base cs).map (c :: ·) else none

/-- A number in a base, with underscores between its digits. -/
def based? (base : Nat) (cs : List Char) : Option Nat := do
  number? base (← plainDigits? base cs)

/-- A sign, and what follows it. -/
def signed (cs : List Char) : Bool × List Char :=
  match cs with
  | '-' :: rest => (true, rest)
  | '+' :: rest => (false, rest)
  | _ => (false, cs)

/-- The digits of a decimal number, which has no leading zero. -/
def decimalDigits? (cs : List Char) : Option (List Char) := do
  let digits ← plainDigits? 10 cs
  match digits with
  | '0' :: _ :: _ => none
  | _ => return digits

/-! ## Integers -/

/-- An integer, within 64 bits. -/
def integer? (cs : List Char) : Option Int := do
  let n : Int ←
    match cs with
    | '0' :: 'x' :: digits => (based? 16 digits).map Int.ofNat
    | '0' :: 'o' :: digits => (based? 8 digits).map Int.ofNat
    | '0' :: 'b' :: digits => (based? 2 digits).map Int.ofNat
    | _ =>
      let (negative, cs) := signed cs
      let n ← number? 10 (← decimalDigits? cs)
      pure (if negative then -Int.ofNat n else Int.ofNat n)
  if -0x8000000000000000 ≤ n ∧ n < 0x8000000000000000 then return n else none

/-! ## Numbers with a fraction or an exponent -/

/-- The parts of a decimal number. -/
structure Decimal where
  negative : Bool
  whole : List Char
  fraction : List Char
  exponent : Int

def isNumeral (c : Char) : Bool := c.isDigit || c == '_'

/-- What follows the mark of an exponent. -/
def exponent? (cs : List Char) : Option Int := do
  let (negative, cs) := signed cs
  let n ← based? 10 cs
  return if negative then -Int.ofNat n else Int.ofNat n

/-- A decimal number with a fraction, an exponent, or both. -/
def decimal? (cs : List Char) : Option Decimal := do
  let (negative, cs) := signed cs
  let whole ← decimalDigits? (cs.takeWhile isNumeral)
  match cs.dropWhile isNumeral with
  | '.' :: rest =>
    let fraction ← plainDigits? 10 (rest.takeWhile isNumeral)
    match rest.dropWhile isNumeral with
    | [] => return ⟨negative, whole, fraction, 0⟩
    | 'e' :: rest | 'E' :: rest => return ⟨negative, whole, fraction, ← exponent? rest⟩
    | _ => none
  | 'e' :: rest | 'E' :: rest => return ⟨negative, whole, [], ← exponent? rest⟩
  | _ => none

/-- Whether the nearest number of double precision is infinite. -/
def Decimal.overflows (d : Decimal) : Bool :=
  let n := (number? 10 (d.whole ++ d.fraction)).getD 0
  let scale := d.exponent - d.fraction.length
  if n = 0 then false
  else if scale > 400 then true
  else if 0 ≤ scale then Double.overflowStart ≤ n * Nat.pow 10 scale.toNat
  else if (d.whole ++ d.fraction).length + scale < 300 then false
  else Double.overflowStart * Nat.pow 10 (-scale).toNat ≤ n

/-- A number that is not an integer. Positive numbers must be within range. -/
def isFloat (cs : List Char) : Bool :=
  let unsigned := (signed cs).2
  unsigned == ['i', 'n', 'f'] || unsigned == ['n', 'a', 'n']
    || (decimal? cs).any fun d => d.negative || !d.overflows

/-! ## Moments -/

/-- A number of two digits up to `max`, and what follows it. -/
def twoDigits? (max : Nat) : List Char → Option (Nat × List Char)
  | a :: b :: cs => do
    let n ← number? 10 [a, b]
    if n ≤ max then return (n, cs) else none
  | _ => none

def daysIn (year month : Nat) : Nat :=
  if month = 2 then
    if year % 4 = 0 && (year % 100 != 0 || year % 400 = 0) then 29 else 28
  else if month = 4 || month = 6 || month = 9 || month = 11 then 30
  else 31

/-- Passes over a date. -/
def skipDate? : List Char → Option (List Char)
  | a :: b :: c :: d :: '-' :: cs => do
    let year ← number? 10 [a, b, c, d]
    let (month, cs) ← twoDigits? 12 cs
    match cs with
    | '-' :: cs =>
      let (day, cs) ← twoDigits? (daysIn year month) cs
      if 1 ≤ month ∧ 1 ≤ day then return cs else none
    | _ => none
  | _ => none

/-- Passes over a time of day. A minute may have a leap second. -/
def skipTime? (cs : List Char) : Option (List Char) := do
  match ← twoDigits? 23 cs with
  | (_, ':' :: cs) =>
    match ← twoDigits? 59 cs with
    | (_, ':' :: cs) =>
      match ← twoDigits? 60 cs with
      | (_, '.' :: cs) =>
        if cs.head?.any Char.isDigit then return cs.dropWhile Char.isDigit else none
      | (_, cs) => return cs
    | _ => none
  | _ => none

/-- Nothing, or the distance to universal time. -/
def isOffset : List Char → Bool
  | [] | ['Z'] | ['z'] => true
  | sign :: cs =>
    (sign == '+' || sign == '-') &&
      match twoDigits? 23 cs with
      | some (_, ':' :: cs) => (twoDigits? 59 cs).any (·.2.isEmpty)
      | _ => false

/-- A time of day, with or without its distance to universal time. -/
def isZonedTime (cs : List Char) : Bool := (skipTime? cs).any isOffset

def isDate (cs : List Char) : Bool := skipDate? cs == some []

/-- A date, a time of day, or both with a letter between them. -/
def isMoment (cs : List Char) : Bool :=
  match skipDate? cs with
  | some [] => true
  | some (c :: cs) => (c == 'T' || c == 't') && isZonedTime cs
  | none => skipTime? cs == some []

/-! ## Scalars -/

/-- The value that an unquoted run of characters writes. -/
def scalar? (cs : List Char) : Option Toml :=
  if cs = ['t', 'r', 'u', 'e'] then some (.bool true)
  else if cs = ['f', 'a', 'l', 's', 'e'] then some (.bool false)
  else if let some n := integer? cs then some (.int n)
  else if isFloat cs then some (.float (String.ofList cs))
  else if isMoment cs then some (.moment (String.ofList cs))
  else none

end MethodBrowser.Toml
