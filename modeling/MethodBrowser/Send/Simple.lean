import MethodBrowser.Send.Basic

/-!
# Unary and binary sends

A unary or binary send is a word or an operator that follows a receiver: an identifier, a decimal
number or a closing bracket. After a semicolon on the top level of the method it continues a
cascade. White space may stand between the receiver and the selector, but no comment.
-/

namespace MethodBrowser.Source

variable (src : Source)

/-! ## Receivers -/

/-- The end of the digits that start at `i`, cut off at `limit`. -/
def digitsEnd (i limit : Nat) : Nat := src.runEnd (fun c => Byte.isDigit c.byte) i limit

/-- The decimal number that starts at `i`: digits, and digits after a point if there are any. -/
def numberAt? (i limit : Nat) : Option Span :=
  if src.byteIs Byte.isDigit i && src.isWordStart i then
    let whole := src.digitsEnd (i + 1) limit
    let stop :=
      if whole + 1 < limit && src.byteIs (· == '.'.toUInt8) whole
          && src.byteIs Byte.isDigit (whole + 1) then
        src.digitsEnd (whole + 1) limit
      else whole
    if src.isWordEnd stop && src.isCodeSpan ⟨i, stop⟩ then some ⟨i, stop⟩ else none
  else none

/-- A bracket of code at `i` that closes a group. -/
def isCloser (i : Nat) : Bool := src.codeAt i ')' || src.codeAt i ']' || src.codeAt i '}'

/-- The receiver that starts at `i` and the offset where it ends. A keyword is no receiver. -/
def receiverAt? (i limit : Nat) : Option (Receiver × Nat) :=
  match src.wordAt? i limit with
  | some word =>
    if src.codeAt word.stop ':' then none else some (.ofWord (src.slice word), word.stop)
  | none =>
    match src.numberAt? i limit with
    | some number => some (.unknown, number.stop)
    | none => if src.isCloser i then some (.unknown, i + 1) else none

theorem numberAt?_bounds {i limit : Nat} {s : Span} (h : src.numberAt? i limit = some s) :
    s.start = i ∧ i < s.stop := by
  have h₁ := src.le_runEnd (fun c => Byte.isDigit c.byte) (i + 1) limit
  have h₂ := src.le_runEnd (fun c => Byte.isDigit c.byte) (src.digitsEnd (i + 1) limit + 1) limit
  simp only [numberAt?, digitsEnd] at h h₁ h₂
  grind

theorem receiverAt?_lt {i limit stop : Nat} {r : Receiver}
    (h : src.receiverAt? i limit = some (r, stop)) : i < stop := by
  unfold receiverAt? at h
  split at h
  · next hw => have := src.wordAt?_bounds hw; grind
  · split at h
    · next hn => have := src.numberAt?_bounds hn; grind
    · grind

/-! ## Sends -/

/-- The unary or binary send whose receiver ends at `i`. -/
def sendAfter? (r : Receiver) (i limit : Nat) : Option Send :=
  let start := src.skipGap i limit
  match src.wordAt? start limit with
  | some word =>
    if src.codeAt word.stop ':' then none else some ⟨src.slice word, .unary, r, word, 1⟩
  | none => (src.binaryAt? start limit).map fun token => ⟨src.slice token, .binary, r, token, 1⟩

/-- The sends to receivers that start at `i` or later. -/
def receiverSendsFrom (i limit : Nat) : List Send :=
  if _h : i < limit then
    match _found : src.receiverAt? i limit with
    | none => receiverSendsFrom (i + 1) limit
    | some (r, stop) => (src.sendAfter? r stop limit).toList ++ receiverSendsFrom stop limit
  else []
termination_by limit - i
decreasing_by
  · omega
  · have := src.receiverAt?_lt _found
    omega

/-- The sends that continue a cascade, among the given offsets. The counters tell which groups
are open before the first of them. -/
def cascadeSendsAt (limit : Nat) : Nesting → List Nat → List Send
  | _, [] => []
  | n, i :: is =>
    let n' := src.nest n i
    let sends := cascadeSendsAt limit n' is
    if src.codeAt i ';' && n'.isTopLevel then
      (src.sendAfter? .cascade (i + 1) limit).toList ++ sends
    else sends

/-- All unary and binary sends of a region, cascades last. -/
def simpleSends (region : SendRegion) : List Send :=
  (src.receiverSendsFrom region.span.start region.span.stop
    ++ src.cascadeSendsAt region.span.stop .empty region.span.offsets).filter
      fun send => region.admits send.span

end MethodBrowser.Source
