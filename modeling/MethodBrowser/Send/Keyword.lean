import MethodBrowser.Send.Basic

/-!
# Keyword sends

A keyword send is a run of keywords on one nesting level: in `a at: (b at: 1) put: 2` the outer
run is `at:` and `put:`, and the inner `at:` is a run of its own. A run ends at a period, a
semicolon or a caret on its level, or where its group is closed. A keyword that belongs to a run
starts no run itself.
-/

namespace MethodBrowser

/-- A keyword send with the span of each of its keywords. -/
structure KeywordRun where
  first : Span
  rest : List Span
  selector : String
  receiver : Receiver
  deriving DecidableEq

namespace KeywordRun

/-- The keywords of the run, in order. -/
def tokens (run : KeywordRun) : List Span := run.first :: run.rest

/-- The span from the first keyword to the last. -/
def span (run : KeywordRun) : Span := run.first.merge (run.rest.getLast?.getD run.first)

def toSend (run : KeywordRun) : Send :=
  ⟨run.selector, .keyword, run.receiver, run.span, run.tokens.length⟩

end KeywordRun

namespace Source

variable (src : Source)

/-- A byte of code at `i` that ends a run on its own level. -/
def endsRun (i : Nat) : Bool := src.codeAt i ';' || src.codeAt i '^' || src.isTerminator i

/-- The keywords from `i` on that continue a run, given the groups opened since its start. -/
def runTail (n : Nesting) (i stop : Nat) : List Span :=
  if _h : i < stop then
    match src.codeByte? i with
    | none => runTail n (i + 1) stop
    | some b =>
      if n.isTopLevel && src.endsRun i then []
      else
        match n.step? b with
        | none => []
        | some n' =>
          match _word : src.wordAt? i stop with
          | none => runTail n' (i + 1) stop
          | some word =>
            match _keyword : if n'.isTopLevel then src.keywordAt? i stop else none with
            | none => runTail n' word.stop stop
            | some token => token :: runTail n' token.stop stop
  else []
termination_by stop - i
decreasing_by
  · omega
  · omega
  · have := src.wordAt?_bounds _word
    omega
  · split at _keyword
    · have := src.keywordAt?_bounds _keyword
      omega
    · simp at _keyword

/-- The receiver of a keyword send, from what stands before its first keyword. -/
def keywordReceiver (i floor : Nat) : Receiver :=
  let before := src.skipGapBack i floor
  if before = floor || !src.isCode (before - 1) then .unknown
  else if src.codeAt (before - 1) ';' then .cascade
  else
    let start := src.runStart (fun c => Byte.isIdent c.byte) before floor
    if start = before || !src.isWordStart start then .unknown
    else .ofWord (src.slice ⟨start, before⟩)

/-- The run that starts with the keyword `first`. -/
def keywordRun (region : SendRegion) (first : Span) : KeywordRun :=
  let rest := src.runTail .empty first.stop region.span.stop
  ⟨first, rest, String.join ((first :: rest).map src.slice),
    src.keywordReceiver first.start region.span.start⟩

/-- The runs that start with one of the given keywords, where `taken` lists the starts of the
keywords that belong to an earlier run. -/
def runsOf (region : SendRegion) (taken : List Nat) : List Span → List KeywordRun
  | [] => []
  | first :: others =>
    if taken.contains first.start || !region.admits first then runsOf region taken others
    else
      let run := src.keywordRun region first
      let runs := runsOf region (run.tokens.map (·.start) ++ taken) others
      if run.tokens.all region.admits then run :: runs else runs

/-- All keyword sends of a region, in order. -/
def keywordRuns (region : SendRegion) : List KeywordRun :=
  src.runsOf region [] (src.keywords region.span)

end Source

end MethodBrowser
