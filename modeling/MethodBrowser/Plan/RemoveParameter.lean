import MethodBrowser.Plan.Forwarder

/-!
# Removing a parameter

Drops an argument that a keyword method does not use, together with its keyword. The old selector
becomes a forwarder that loses the argument, which every plan says first. A method that loses its
only argument becomes unary.
-/

namespace MethodBrowser.RemoveParameter

structure Request where
  className : String
  side : Side
  selector : String
  argumentName : String
  overwrite : Bool
  deriving DecidableEq

structure Plan where
  method : MethodRef
  newMethod : MethodRef
  removedArgument : String
  category : String
  oldSource : String
  newSource : String
  /-- The forwarder. -/
  compatibilitySource : String
  senderImpact : Impact
  warnings : List String
  deriving DecidableEq

/-- The signature without the argument at a position. -/
def headerWithout (header : Header) (position : Nat) : Header :=
  match header.parts.eraseIdx position with
  | [] =>
    let keyword := (header.parts[position]?).getD ""
    .ofParts .unary [String.ofList (keyword.toList.filter (· ≠ ':'))] []
  | parts => .ofParts .keyword parts (header.arguments.eraseIdx position)

def plan (session : Session) (settings : Settings) (r : Request) : Except Failure Plan := do
  let target ← session.keywordMethod r.className r.side r.selector
  let header := target.header
  require (header.arguments.contains r.argumentName)
    (.unknownArgument target.method r.argumentName)
  let src := Source.ofText target.source
  let used := src.occurrences r.argumentName ⟨header.signatureEnd, src.size⟩
  require used.isEmpty (.argumentStillUsed target.method r.argumentName)
  let position := header.arguments.idxOf r.argumentName
  let newHeader := headerWithout header position
  let newMethod ← session.freeMethod target.method newHeader.selector r.overwrite
  let impact := Impact.ofMethods (session.senders r.selector) settings.senderExampleLimit
  let category ← session.categoryOf settings target.method
  let old := r.selector
  let new := newHeader.selector
  let argument := r.argumentName
  let count := impact.count
  let listed := impact.describe
  let warnings :=
    (s!"LOSSY: `{old}` is kept as a forwarder to `{new}` that silently discards its " ++
      s!"`{argument}` argument; senders passing a meaningful value lose it") ::
    if impact.isEmpty then [] else
      [s!"{count} sender(s) go through the lossy forwarder: {listed}"]
  return ⟨target.method, newMethod, r.argumentName, category, target.source,
    replaceHeader target.source header newHeader,
    forwarder header newHeader (header.arguments.eraseIdx position), impact, warnings⟩

namespace Plan

variable (p : Plan)

def writes : List Write := forwarderWrites p.method p.newSource p.compatibilitySource p.category

def changes : List SourceChange :=
  forwarderChanges p.method p.newMethod p.oldSource p.newSource p.compatibilitySource

def members : List (String × Json) :=
  [("method", p.method.toJson), ("new_method", p.newMethod.toJson),
    ("removed_argument", .str p.removedArgument), ("category", .str p.category),
    ("original_source", .str p.oldSource), ("new_source", .str p.newSource),
    ("compatibility_source", .str p.compatibilitySource),
    ("sender_impact", p.senderImpact.toJson),
    ("warnings", .strs p.warnings), ("analysis_limitations", .strs analysisLimitations)]

def outcome (_ : Plan) : List (String × Json) := [("compatibility_method_compiled", .bool true)]

end Plan

end MethodBrowser.RemoveParameter
