import MethodBrowser.Send.Keyword
import MethodBrowser.Send.Simple

/-!
# The sends of a method

Keyword sends and the simpler ones are found apart and listed together in the order in which
they stand in the text. No two of them start at the same byte. `Source.detectedSends` finds the same
list in four walks that overlap.
-/

namespace MethodBrowser

/-- What every answer that is built on sends has to disclose. -/
def analysisLimitations : List String :=
  ["Dispatch targets are not resolved: receiver hints are textual guesses, not types, " ++
      "so a send may reach any implementor of its selector.",
    "Detection is heuristic: sends in uncommon layouts (comments between tokens, " ++
      "cascades nested inside parentheses or blocks, unusual literal syntax) may be missed."]

namespace Source

variable (src : Source)

/-- The keyword sends of a region. -/
def keywordSends (region : SendRegion) : List Send :=
  ((src.keywordRuns region).map KeywordRun.toSend).filter fun send =>
    region.span.contains send.span

/-- All sends of the method, in order. -/
def sends : List Send :=
  let region := src.sendRegion
  (src.keywordSends region ++ src.simpleSends region).mergeSort fun a b => a.span.le b.span

/-- The sends of one selector, or all sends. -/
def sendsOf (selector : Option String) : List Send :=
  match selector with
  | none => src.sends
  | some s => src.sends.filter (·.selector == s)

/-- The method sends `selector`. -/
def sendsSelector (selector : String) : Bool := src.sends.any (·.selector == selector)

end Source

end MethodBrowser
