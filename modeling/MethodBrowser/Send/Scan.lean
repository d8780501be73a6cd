import MethodBrowser.Send.Detect

/-!
# Four walks

The sends of a method are found by four walks through its region. Each of them knows one kind of
place where a send may stand: behind `self` and `super`, at a keyword, behind any receiver, and
behind the semicolon of a cascade. Every walk jumps from one token to the next in its own way, and
what they find overlaps: a send behind `self` is met by the first walk and by the third.

**The merge.** The findings are kept in a list that is ordered by a key: the span, the selector and
the kind. Of findings with one key the first stays, and it learns the receiver of a later one if its
own is unknown.

The list that comes out is `Source.sends`, which needs neither the first walk nor the merge.
-/

namespace MethodBrowser

/-- The place of a kind among the sends of one selector. -/
def SelectorKind.rank : SelectorKind → Nat
  | unary => 0
  | binary => 1
  | keyword => 2

namespace Send

/-- Sends are ordered by span, then by selector, then by kind. -/
def compareKey (a b : Send) : Ordering :=
  (a.span.compare b.span).then
    ((compareOfLessAndEq a.selector b.selector).then (compareOfLessAndEq a.kind.rank b.kind.rank))

/-- What stays of a send when another one with its key is found. -/
def absorb (kept candidate : Send) : Send :=
  if kept.receiver = .unknown then { kept with receiver := candidate.receiver } else kept

/-- Puts a send into a list that is ordered by key. -/
def mergeInto (candidate : Send) : List Send → List Send
  | [] => [candidate]
  | kept :: rest =>
    match candidate.compareKey kept with
    | .lt => candidate :: kept :: rest
    | .eq => kept.absorb candidate :: rest
    | .gt => kept :: mergeInto candidate rest

end Send

/-- The span of a keyword send covers its arguments too, and its tokens have been asked for one by
one, so it only has to lie inside the region. -/
def SendRegion.admitsSend (region : SendRegion) (send : Send) : Bool :=
  match send.kind with
  | .keyword => region.span.contains send.span
  | .unary | .binary => region.admits send.span

namespace Source

variable (src : Source)

/-! ## The walks -/

/-- The unary and binary sends behind `self` and `super`, from `i` on. -/
def explicitSendsFrom (i limit : Nat) : List Send :=
  if _h : i < limit then
    match _word : src.wordAt? i limit with
    | none => explicitSendsFrom (i + 1) limit
    | some word =>
      let sends := explicitSendsFrom word.stop limit
      match Receiver.ofWord (src.slice word) with
      | .unknown => sends
      | receiver => (src.sendAfter? receiver word.stop limit).toList ++ sends
  else []
termination_by limit - i
decreasing_by
  · omega
  · have := src.wordAt?_bounds _word
    omega

/-- The unary and binary sends behind any receiver, from `i` on. A keyword is passed over. -/
def expressionSendsFrom (i limit : Nat) : List Send :=
  if _h : i < limit then
    if src.isCode i then
      match _word : src.wordAt? i limit with
      | some word =>
        let sends := expressionSendsFrom word.stop limit
        if src.codeAt word.stop ':' then sends
        else (src.sendAfter? (.ofWord (src.slice word)) word.stop limit).toList ++ sends
      | none =>
        match _number : src.numberAt? i limit with
        | some number =>
          (src.sendAfter? .unknown number.stop limit).toList
            ++ expressionSendsFrom number.stop limit
        | none =>
          let sends := expressionSendsFrom (i + 1) limit
          if src.isCloser i then (src.sendAfter? .unknown (i + 1) limit).toList ++ sends else sends
    else expressionSendsFrom (i + 1) limit
  else []
termination_by limit - i
decreasing_by
  · have := src.wordAt?_bounds _word
    omega
  · have := src.numberAt?_bounds _number
    omega
  · omega
  · omega

/-- The runs of keywords from `i` on, where `taken` lists the starts of the keywords that belong to
an earlier run. -/
def scannedRunsFrom (region : SendRegion) (taken : List Nat) (i : Nat) : List KeywordRun :=
  if _h : i < region.span.stop then
    match _first : src.keywordAt? i region.span.stop with
    | none => scannedRunsFrom region taken (i + 1)
    | some first =>
      if taken.contains first.start || !region.admits first then
        scannedRunsFrom region taken first.stop
      else
        let run := src.keywordRun region first
        let runs := scannedRunsFrom region (run.tokens.map (·.start) ++ taken) first.stop
        if run.tokens.all region.admits then run :: runs else runs
  else []
termination_by region.span.stop - i
decreasing_by
  · omega
  · have := src.keywordAt?_bounds _first
    omega
  · have := src.keywordAt?_bounds _first
    omega

/-! ## The list -/

/-- What the walks find in a region, one walk after another. -/
def findings (region : SendRegion) : List Send :=
  src.explicitSendsFrom region.span.start region.span.stop
    ++ (src.scannedRunsFrom region [] region.span.start).map KeywordRun.toSend
    ++ src.expressionSendsFrom region.span.start region.span.stop
    ++ src.cascadeSendsAt region.span.stop .empty region.span.offsets

/-- The sends of the method as the walks and the merge list them. -/
def detectedSends : List Send :=
  let region := src.sendRegion
  ((src.findings region).filter region.admitsSend).foldl
    (fun merged candidate => candidate.mergeInto merged) []

end Source

end MethodBrowser
