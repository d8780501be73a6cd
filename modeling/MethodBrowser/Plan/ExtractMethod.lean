import MethodBrowser.Edit
import MethodBrowser.Statement
import MethodBrowser.Plan.Basic

/-!
# Extracting a method

Moves statements that stand next to each other into a new unary method and puts a send of it in
their place. The new method sees neither the arguments nor the temporaries of the old one, so
their use is reported.
-/

namespace MethodBrowser.ExtractMethod

structure Request where
  className : String
  side : Side
  selector : String
  /-- The statements to extract, counted from one. -/
  statementIndices : List Nat
  newSelector : String
  overwrite : Bool
  deriving DecidableEq

structure Plan where
  method : MethodRef
  newMethod : MethodRef
  category : String
  statementIndices : List Nat
  oldSource : String
  newMethodSource : String
  revisedSource : String
  /-- Arguments and temporaries that the selection mentions. -/
  referencedLocals : List String
  overwrite : Bool
  warnings : List String
  deriving DecidableEq

/-- The distinct numbers of a list, in increasing order. -/
def sortedIndices (indices : List Nat) : List Nat := (indices.mergeSort Nat.ble).eraseReps

/-- The first and last of the selected statements, which must exist and have no gap between
them. -/
def selectionRange (indices : List Nat) (count : Nat) : Except Precondition (Nat × Nat) :=
  let sorted := sortedIndices indices
  match sorted.head?, sorted.getLast? with
  | some first, some last =>
    match sorted.find? fun i => i == 0 || Nat.blt count i with
    | some index => .error (.statementOutOfRange index count)
    | none =>
      if sorted.length ≠ last - first + 1 then .error (.gapInSelection first last)
      else .ok (first, last)
  | _, _ => .error .emptySelection

/-- The arguments and temporaries of a method that are mentioned in a span. -/
def referencedLocals (src : Source) (selection : Span) : List String :=
  let arguments := ((Header.ofText? src.text).map (·.arguments)).getD []
  (arguments ++ src.temporaries).filter fun name => !(src.occurrences name selection).isEmpty

/-- A method of the given statements. -/
def extracted (selector : String) (statements : List String) : String :=
  selector ++ "\n" ++ indent ++ String.intercalate (".\n" ++ indent) statements

def plan (session : Session) (settings : Settings) (r : Request) : Except Failure Plan := do
  require (Selector.kind? r.newSelector == some .unary)
    (.invalidSelector r.newSelector
      "extracted methods take no arguments, so the selector must be unary")
  require (r.newSelector ≠ r.selector) (.sameSelector r.newSelector)
  let method : MethodRef := ⟨r.className, r.side, r.selector⟩
  let newMethod : MethodRef := ⟨r.className, r.side, r.newSelector⟩
  let source ← session.sourceOf method
  let src := Source.ofText source
  let statements := src.statements
  let (first, last) ←
    (selectionRange r.statementIndices statements.length).mapError Failure.precondition
  let indices := List.range' first (last - first + 1)
  let selected := (statements.drop (first - 1)).take (last - first + 1)
  match (indices.zip selected).find? fun p => p.2.kind == .returns with
  | some (index, _) => throw (.precondition (.returnInSelection index))
  | none => pure ()
  if !r.overwrite then
    let taken ← session.implements r.className r.side r.newSelector
    require (!taken) (.targetExists newMethod)
  let selection : Span :=
    ⟨(selected.head?.map (·.span.start)).getD 0, (selected.getLast?.map (·.span.stop)).getD 0⟩
  let locals := referencedLocals src selection
  let listed := String.intercalate ", " locals
  let warnings :=
    (if locals.isEmpty then [] else
      [s!"The selection uses {listed} which the extracted method cannot see; " ++
        "it will not compile as-is"])
    ++ (if selected.any (·.kind == .assignment) then
      ["The selection assigns variables; those assignments move into the new method"] else [])
  let category ← session.categoryOf settings method
  return ⟨method, newMethod, category, indices, source,
    extracted r.newSelector (selected.map fun s => src.slice s.span),
    Edit.applyAll source [⟨selection, "self " ++ r.newSelector⟩], locals, r.overwrite, warnings⟩

namespace Plan

variable (p : Plan)

def writes : List Write :=
  [.compile p.method.className p.method.side p.newMethodSource p.category,
    .compile p.method.className p.method.side p.revisedSource p.category]

def changes : List SourceChange :=
  [⟨p.newMethod.display, "", p.newMethodSource⟩,
    ⟨p.method.display, p.oldSource, p.revisedSource⟩]

def members : List (String × Json) :=
  [("method", p.method.toJson), ("new_method", p.newMethod.toJson),
    ("category", .str p.category), ("statement_indices", .arr (p.statementIndices.map .num)),
    ("original_source", .str p.oldSource), ("new_method_source", .str p.newMethodSource),
    ("rewritten_source", .str p.revisedSource),
    ("referenced_locals", .strs p.referencedLocals), ("overwrite", .bool p.overwrite),
    ("warnings", .strs p.warnings), ("analysis_limitations", .strs analysisLimitations)]

def outcome (_ : Plan) : List (String × Json) := []

end Plan

end MethodBrowser.ExtractMethod
