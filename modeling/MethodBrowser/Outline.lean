import MethodBrowser.Dictionary
import MethodBrowser.Json.Basic
import MethodBrowser.Send.Detect
import MethodBrowser.Source.Position
import MethodBrowser.Statement

/-!
# Outlines

The analysed shape of a method: its header line, its temporaries, its top-level statements with the
sends inside each, and counts of what its body contains. The counts run over the whole body, so
brackets and carets of the preamble are among them.
-/

namespace MethodBrowser

/-! ## Control flow -/

/-- Selectors that branch. -/
def branchSelectors : List String :=
  ["ifTrue:", "ifFalse:", "ifTrue:ifFalse:", "ifNil:", "ifNotNil:"]

/-- Selectors that loop. -/
def loopSelectors : List String := ["whileTrue:", "whileFalse:", "to:do:"]

/-- Branches, loops and the nesting of blocks. -/
structure ControlFlow where
  branches : Nat
  loops : Nat
  maxBlockDepth : Nat
  /-- How often each branching or looping selector is sent, by selector. -/
  selectorCounts : List (String × Nat)
  deriving DecidableEq

/-- The greatest number of blocks open at once among the given offsets, where `depth` are open
before them. A bracket that closes nothing is passed over. -/
def Source.blockDepth (src : Source) : (depth : Nat) → List Nat → Nat
  | depth, [] => depth
  | depth, i :: is =>
    if src.codeAt i '[' then src.blockDepth (depth + 1) is
    else if src.codeAt i ']' then Nat.max depth (src.blockDepth (depth - 1) is)
    else src.blockDepth depth is

def ControlFlow.ofSends (src : Source) (body : Span) (sends : List Send) : ControlFlow :=
  let branching := sends.filter fun send => branchSelectors.contains send.selector
  let looping := sends.filter fun send => loopSelectors.contains send.selector
  let selectors := (branching ++ looping).map (·.selector)
  ⟨branching.length, looping.length, src.blockDepth 0 body.offsets,
    (sortedNames selectors).map fun name => (name, selectors.count name)⟩

/-! ## Structure -/

/-- Counts of tokens and sends. -/
structure Structure where
  statements : Nat
  temporaries : Nat
  blockOpens : Nat
  blockCloses : Nat
  returns : Nat
  cascades : Nat
  assignments : Nat
  terminators : Nat
  sends : Nat
  unarySends : Nat
  binarySends : Nat
  keywordSends : Nat
  selfSends : Nat
  superSends : Nat
  deriving DecidableEq

def Structure.count (src : Source) (body : Span) (statements temporaries : Nat)
    (sends : List Send) : Structure where
  statements := statements
  temporaries := temporaries
  blockOpens := body.offsets.countP (src.codeAt · '[')
  blockCloses := body.offsets.countP (src.codeAt · ']')
  returns := body.offsets.countP (src.codeAt · '^')
  cascades := body.offsets.countP (src.codeAt · ';')
  assignments := body.offsets.countP src.isAssignment
  terminators := body.offsets.countP src.isTerminator
  sends := sends.length
  unarySends := sends.countP (·.kind == .unary)
  binarySends := sends.countP (·.kind == .binary)
  keywordSends := sends.countP (·.kind == .keyword)
  selfSends := sends.countP (·.receiver == .self)
  superSends := sends.countP (·.receiver == .super)

/-! ## Outlines -/

/-- A statement in an outline. -/
structure OutlineStatement where
  /-- The place among the statements, counted from one. -/
  index : Nat
  kind : StatementKind
  text : String
  span : Span
  /-- The sends inside the statement. -/
  sends : List Send
  deriving DecidableEq

structure Outline where
  header : String
  bodyStart : Nat
  temporaries : List String
  statements : List OutlineStatement
  sends : List Send
  shape : Structure
  controlFlow : ControlFlow
  positions : PositionIndex

def OutlineStatement.ofStatement (src : Source) (sends : List Send) (s : Statement)
    (index : Nat) : OutlineStatement :=
  ⟨index, s.kind, src.slice s.span, s.span, sends.filter fun send => s.span.contains send.span⟩

/-- Analyses the text of a method. -/
def Outline.ofText (text : String) : Outline :=
  let src := Source.ofText text
  let sends := src.sends
  let statements := src.statements
  let temporaries := src.temporaries
  let body : Span := ⟨src.bodyStart, src.size⟩
  { header := (splitHeader text).1
    bodyStart := src.bodyStart
    temporaries := temporaries
    statements := statements.mapIdx fun i s => .ofStatement src sends s (i + 1)
    sends := sends
    shape := .count src body statements.length temporaries.length sends
    controlFlow := .ofSends src body sends
    positions := .ofText text }

/-- The sends of a method, all or those of one selector. -/
structure SendReport where
  sends : List Send
  positions : PositionIndex

def SendReport.ofText (text : String) (selector : Option String) : SendReport :=
  ⟨(Source.ofText text).sendsOf selector, .ofText text⟩

/-! ## As JSON -/

/-- The members that locate a span. -/
def PositionIndex.members (positions : PositionIndex) (s : Span) : List (String × Json) :=
  let (first, last) := positions.bounds s
  [("start_offset", .num s.start), ("end_offset", .num s.stop),
    ("start_line", .num first.line), ("start_col", .num first.column),
    ("end_line", .num last.line), ("end_col", .num last.column)]

def Send.toJson (positions : PositionIndex) (send : Send) : Json :=
  .obj ([("selector", .str send.selector), ("send_type", .str send.kind.name),
      ("receiver_hint", .str send.receiver.name)]
    ++ positions.members send.span ++ [("token_count", .num send.tokens)])

def OutlineStatement.toJson (positions : PositionIndex) (s : OutlineStatement) : Json :=
  .obj ([("statement_index", .num s.index), ("statement_kind", .str s.kind.name),
      ("source_text", .str s.text)]
    ++ positions.members s.span ++ [("sends", .arr (s.sends.map (·.toJson positions)))])

def Structure.toJson (s : Structure) : Json :=
  .obj [("statement_count", .num s.statements), ("temporaries_count", .num s.temporaries),
    ("block_open_count", .num s.blockOpens), ("block_close_count", .num s.blockCloses),
    ("return_count", .num s.returns), ("cascade_count", .num s.cascades),
    ("assignment_count", .num s.assignments),
    ("statement_terminator_count", .num s.terminators), ("send_count", .num s.sends),
    ("unary_send_count", .num s.unarySends), ("binary_send_count", .num s.binarySends),
    ("keyword_send_count", .num s.keywordSends), ("self_send_count", .num s.selfSends),
    ("super_send_count", .num s.superSends)]

def ControlFlow.toJson (c : ControlFlow) : Json :=
  .obj [("branch_count", .num c.branches), ("loop_count", .num c.loops),
    ("max_block_depth", .num c.maxBlockDepth),
    ("selector_counts", .obj (c.selectorCounts.map fun e => (e.1, .num e.2)))]

def Outline.toJson (o : Outline) : Json :=
  .obj [("header_source", .str o.header), ("body_start_offset", .num o.bodyStart),
    ("temporaries", .strs o.temporaries),
    ("statements", .arr (o.statements.map (·.toJson o.positions))),
    ("sends", .arr (o.sends.map (·.toJson o.positions))),
    ("structure_summary", o.shape.toJson), ("control_flow_summary", o.controlFlow.toJson),
    ("analysis_limitations", .strs analysisLimitations)]

def SendReport.toJson (r : SendReport) : Json :=
  .obj [("sends", .arr (r.sends.map (·.toJson r.positions))),
    ("analysis_limitations", .strs analysisLimitations)]

end MethodBrowser
