import MethodBrowser.Diff.Unified
import MethodBrowser.Outline
import MethodBrowser.Refactoring

/-!
# Answers as text

The text that people read: an outline as a table of statements and a table of sends, a list of
sends, and a plan as the diffs of the sources that it changes. Columns are padded to a width that
is counted in characters. Every answer ends with what the analysis cannot know.
-/

namespace MethodBrowser.CommandLine

/-! ## Columns -/

def padLeft (width : Nat) (s : String) : String :=
  String.ofList (List.replicate (width - s.length) ' ') ++ s

def padRight (width : Nat) (s : String) : String :=
  s ++ String.ofList (List.replicate (width - s.length) ' ')

/-- The lines and columns of a span. -/
def boundsText (positions : PositionIndex) (s : Span) : String :=
  let (first, last) := positions.bounds s
  first.line.repr ++ ":" ++ first.column.repr ++ "-" ++ last.line.repr ++ ":" ++ last.column.repr

/-- A list under a heading, one item a line. -/
def bulletList (heading : String) (items : List String) : String :=
  heading ++ ":\n" ++ String.join (items.map fun item => s!"  - {item}\n")

def limitationsText : String := bulletList "limitations" analysisLimitations

/-! ## Outlines and sends -/

def sendText (positions : PositionIndex) (send : Send) : String :=
  "  " ++ padRight 20 send.selector ++ " " ++ padRight 8 send.kind.name ++ " "
    ++ padRight 8 send.receiver.name ++ " " ++ boundsText positions send.span ++ "\n"

def sendsText (positions : PositionIndex) (sends : List Send) : String :=
  "sends:\n" ++ String.join (sends.map (sendText positions))

/-- A statement on one line. -/
def statementText (positions : PositionIndex) (s : OutlineStatement) : String :=
  let flat := s.text.map fun c => if c = '\n' then ' ' else c
  "  " ++ padLeft 2 s.index.repr ++ " " ++ padRight 10 s.kind.name ++ " "
    ++ boundsText positions s.span ++ "  " ++ flat ++ "\n"

def summaryText (shape : Structure) (flow : ControlFlow) : String :=
  let counted := fun (n : Nat) (noun : String) => n.repr ++ " " ++ noun
  let kinds := String.intercalate ", " [counted shape.unarySends "unary",
    counted shape.binarySends "binary", counted shape.keywordSends "keyword"]
  let parts := String.intercalate ", " [counted shape.sends "sends (" ++ kinds ++ ")",
    counted flow.branches "branches", counted flow.loops "loops"]
  s!"summary: {parts}, block depth " ++ flow.maxBlockDepth.repr ++ "\n"

def outlineText (o : Outline) : String :=
  let temporaries :=
    if o.temporaries.isEmpty then ""
    else "temporaries: " ++ String.intercalate " " o.temporaries ++ "\n"
  "header: " ++ o.header ++ "\n" ++ temporaries ++ "statements:\n"
    ++ String.join (o.statements.map (statementText o.positions))
    ++ summaryText o.shape o.controlFlow ++ sendsText o.positions o.sends ++ limitationsText

def sendReportText (r : SendReport) : String := sendsText r.positions r.sends ++ limitationsText

/-! ## Plans -/

def planText (plan : Refactoring.Plan) : String :=
  let diffs := plan.changes.map fun c => Diff.unified c.label c.before c.after
  let warnings := if plan.warnings.isEmpty then "" else bulletList "warnings" plan.warnings
  String.join diffs ++ warnings ++ limitationsText

def appliedText (applied : Refactoring.Applied) : String :=
  let compiled := applied.effects.compiled.length
  let deleted := applied.effects.deleted.length
  planText applied.plan ++ s!"applied: compiled {compiled}, deleted {deleted}\n"

end MethodBrowser.CommandLine
