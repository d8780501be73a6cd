import MethodBrowser.Source.Preamble
import MethodBrowser.Source.Nesting

/-!
# Statements

The body of a method is cut into statements at the periods that stand outside all groups. Each
piece is narrowed to its first and last significant byte: white space and comments at its ends go,
literals stay. A piece without significant bytes is no statement.
-/

namespace MethodBrowser

inductive StatementKind where
  /-- Starts with a caret. -/
  | returns
  /-- Contains an assignment sign. -/
  | assignment
  | expression
  deriving DecidableEq

def StatementKind.name : StatementKind → String
  | returns => "return"
  | assignment => "assignment"
  | expression => "expression"

structure Statement where
  span : Span
  kind : StatementKind
  deriving DecidableEq

namespace Source

variable (src : Source)

/-- Narrows a span to its first and last significant byte. -/
def trim? (raw : Span) : Option Span :=
  let start := src.runEnd (fun c => !c.isSignificant) raw.start raw.stop
  if start < raw.stop then
    some ⟨start, src.runStart (fun c => !c.isSignificant) raw.stop start⟩
  else none

def statementKind (s : Span) : StatementKind :=
  if src.codeAt s.start '^' then .returns
  else if s.offsets.any src.isAssignment then .assignment
  else .expression

/-- The statement that a piece of the body holds. -/
def statementIn? (raw : Span) : Option Statement :=
  (src.trim? raw).map fun s => ⟨s, src.statementKind s⟩

/-- The pieces between the top-level periods among the given offsets. The current piece starts at
`start`, and the counters tell which groups are open before the first offset. -/
def pieces (stop : Nat) : (start : Nat) → Nesting → List Nat → List Span
  | start, _, [] => [⟨start, stop⟩]
  | start, n, i :: is =>
    let n' := src.nest n i
    if n'.isTopLevel && src.isTerminator i then ⟨start, i⟩ :: pieces stop (i + 1) n' is
    else pieces stop start n' is

/-- The statements of a region. -/
def statementsIn (region : Span) : List Statement :=
  (src.pieces region.stop region.start .empty region.offsets).filterMap src.statementIn?

/-- The statements of the method. -/
def statements : List Statement := src.statementsIn src.statementRegion

end Source

end MethodBrowser
